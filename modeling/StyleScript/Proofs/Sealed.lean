import StyleScript.Proofs.Drafts
import StyleScript.Proofs.DraftReading

/-! Sealed texts: their quotes are closed, their parentheses match, and outside of quotes they have no
brace, no semicolon, and no comma but in parentheses. Both scans of a function's head pass over them,
the one for its end and the one for the commas between its parameters. -/

namespace StyleScript

/-- The characters that the scans look at. -/
def marks : List Char := ['(', ')', ',', '{', '}', ';', '"', '\'']

/-- Commas are allowed inside parentheses, and so in what is to be put there. -/
inductive Sealed : Bool → Text → Prop where
  | nil {commas : Bool} : Sealed commas []
  | plain {commas : Bool} {c : Char} {rest : Text} (plain : c ∉ marks) (later : Sealed commas rest) :
      Sealed commas (c :: rest)
  | quoted {commas : Bool} {quote : Char} {text rest : Text} (isQuote : quote = '"' ∨ quote = '\'')
      (inside : quote ∉ text) (later : Sealed commas rest) : Sealed commas (quote :: (text ++ quote :: rest))
  | parens {commas : Bool} {text rest : Text} (inside : Sealed true text) (later : Sealed commas rest) :
      Sealed commas ('(' :: (text ++ ')' :: rest))
  | comma {rest : Text} (later : Sealed true rest) : Sealed true (',' :: rest)

namespace Sealed
variable {commas : Bool} {text : Text}

theorem append {first second : Text} (one : Sealed commas first) (other : Sealed commas second) :
    Sealed commas (first ++ second) := by
  induction one with
  | nil => exact other
  | plain plain _ ih => exact .plain plain (ih other)
  | quoted isQuote inside _ ih =>
    rw [List.cons_append, List.append_assoc]
    exact .quoted isQuote inside (ih other)
  | parens inside _ _ ih =>
    rw [List.cons_append, List.append_assoc]
    exact .parens inside (ih other)
  | comma _ ih => exact .comma (ih other)

theorem weaken (isSealed : Sealed false text) : Sealed true text := by
  generalize flag : false = commas at isSealed
  induction isSealed with
  | nil => exact .nil
  | plain plain _ ih => exact .plain plain (ih flag)
  | quoted isQuote inside _ ih => exact .quoted isQuote inside (ih flag)
  | parens inside _ _ ih => exact .parens inside (ih flag)
  | comma => cases flag

theorem of_forall (plain : ∀ c ∈ text, c ∉ marks) : Sealed commas text := by
  induction text with
  | nil => exact .nil
  | cons c text ih =>
    obtain ⟨here, later⟩ := List.forall_mem_cons.1 plain
    exact .plain here (ih later)

/-- A class of characters with no mark among them. -/
theorem of_class {test : Char → Bool} (outside : marks.any test = false) (inside : ∀ c ∈ text, test c = true) :
    Sealed commas text := by
  apply of_forall
  intro c member mark
  have never := Text.eq_false_of_any outside mark
  rw [inside c member] at never
  cases never

theorem of_all (plain : text.all (· ∉ marks) = true) : Sealed commas text :=
  of_forall fun c member => of_decide_eq_true (List.all_eq_true.1 plain c member)

theorem single {c : Char} (plain : c ∉ marks) : Sealed commas [c] := .plain plain .nil

theorem enclose {inside : Text} (isSealed : Sealed true inside) : Sealed commas ('(' :: (inside ++ [')'])) :=
  .parens isSealed .nil

end Sealed

theorem quoteAfter_of_not_mem {c : Char} (plain : c ∉ marks) : quoteAfter none c = none := by
  apply quoteAfter_none
  · rintro rfl
    exact plain (by decide)
  · rintro rfl
    exact plain (by decide)

theorem quoteAfter_of_isQuote {quote : Char} (isQuote : quote = '"' ∨ quote = '\'') :
    quoteAfter none quote = some quote :=
  if_pos isQuote

theorem enclosed_of_quoted {quote : Char} {text rest : Text} (inside : quote ∉ text) (enclosed : Enclosed none rest) :
    Enclosed (some quote) (text ++ quote :: rest) := by
  induction text with
  | nil =>
    refine ⟨nofun, ?_⟩
    rw [quoteAfter, if_pos rfl]
    exact enclosed
  | cons c text ih =>
    obtain ⟨other, later⟩ := not_or.1 (mt List.mem_cons.2 inside)
    refine ⟨nofun, ?_⟩
    rw [quoteAfter, if_neg (Ne.symm other)]
    exact ih later

theorem Enclosed.append {first second : Text} {quote : Option Char} (one : Enclosed quote first)
    (other : Enclosed none second) : Enclosed quote (first ++ second) := by
  induction first generalizing quote with
  | nil =>
    rw [show quote = none from one]
    exact other
  | cons c first ih => exact ⟨one.1, ih one.2⟩

theorem Sealed.enclosed {commas : Bool} {text : Text} (isSealed : Sealed commas text) : Enclosed none text := by
  have mark {c : Char} {rest : Text} (other : c ∉ ['{', ';', '}']) (unquoted : quoteAfter none c = none)
      (later : Enclosed none rest) : Enclosed none (c :: rest) := by
    refine ⟨fun _ => other, ?_⟩
    rw [unquoted]
    exact later
  induction isSealed with
  | nil => rfl
  | plain plain _ ih =>
    refine mark (fun member => plain ?_) (quoteAfter_of_not_mem plain) ih
    simp only [List.mem_cons, List.not_mem_nil, or_false] at member
    obtain rfl | rfl | rfl := member <;> decide
  | quoted isQuote inside _ ih =>
    refine ⟨fun _ => by obtain rfl | rfl := isQuote <;> decide, ?_⟩
    rw [quoteAfter_of_isQuote isQuote]
    exact enclosed_of_quoted inside ih
  | parens _ _ ihInside ih =>
    apply mark (by decide) (by decide)
    exact ihInside.append (mark (by decide) (by decide) ih)
  | comma _ ih => exact mark (by decide) (by decide) ih

namespace Nesting

theorem splitFrom_comma (rest : Text) : outside.splitFrom (',' :: rest) = ([], commaParts rest) := rfl

theorem splitFrom_cons {nesting : Nesting} {c : Char} (kept : nesting = outside → c ≠ ',') (rest : Text) :
    nesting.splitFrom (c :: rest) =
      (c :: ((nesting.after c).splitFrom rest).1, ((nesting.after c).splitFrom rest).2) :=
  if_neg fun cut => kept cut.1 cut.2

/-- Nothing is cut between one state and another. -/
def Passes (first last : Nesting) (text : Text) : Prop :=
  ∀ rest, first.splitFrom (text ++ rest) = (text ++ (last.splitFrom rest).1, (last.splitFrom rest).2)

variable {first middle last : Nesting}

theorem passes_nil (nesting : Nesting) : nesting.Passes nesting [] := fun _ => rfl

theorem Passes.append {one other : Text} (passes : first.Passes middle one) (later : middle.Passes last other) :
    first.Passes last (one ++ other) := by
  intro rest
  rw [List.append_assoc, passes, later, List.append_assoc]

theorem passes_cons {c : Char} {text : Text} (kept : first = outside → c ≠ ',')
    (later : (first.after c).Passes last text) : first.Passes last (c :: text) := by
  intro rest
  rw [List.cons_append, splitFrom_cons kept, later]
  rfl

theorem passes_quoted (depth : Nat) {quote : Char} {text : Text} (inside : quote ∉ text) :
    (Nesting.mk (some quote) depth).Passes ⟨none, depth⟩ (text ++ [quote]) := by
  have unquoted : Nesting.mk (some quote) depth ≠ outside := by simp [outside]
  induction text with
  | nil =>
    apply passes_cons fun same => absurd same unquoted
    have closed : Nesting.after ⟨some quote, depth⟩ quote = ⟨none, depth⟩ := by simp [after, quoteAfter]
    rw [closed]
    exact passes_nil _
  | cons c text ih =>
    obtain ⟨other, later⟩ := not_or.1 (mt List.mem_cons.2 inside)
    apply passes_cons fun same => absurd same unquoted
    have open' : Nesting.after ⟨some quote, depth⟩ c = ⟨some quote, depth⟩ := by
      simp [after, quoteAfter, Ne.symm other]
    rw [open']
    exact ih later

/-- A sealed text is not cut, unless it has commas and stands outside of parentheses. -/
theorem passes_of_sealed {commas : Bool} {text : Text} (isSealed : Sealed commas text) {depth : Nat}
    (deep : commas = true → 0 < depth) : (Nesting.mk none depth).Passes ⟨none, depth⟩ text := by
  induction isSealed generalizing depth with
  | nil => exact passes_nil _
  | @plain _ c _ plain _ ih =>
    have same : Nesting.after ⟨none, depth⟩ c = ⟨none, depth⟩ := by
      have opening : c ≠ '(' := fun same => plain (same ▸ by decide)
      have closing : c ≠ ')' := fun same => plain (same ▸ by decide)
      simp [after, quoteAfter_of_not_mem plain, opening, closing]
    apply passes_cons fun _ (same : c = ',') => plain (same ▸ by decide)
    rw [same]
    exact ih deep
  | @quoted _ quote text rest isQuote inside _ ih =>
    have opened : Nesting.after ⟨none, depth⟩ quote = ⟨some quote, depth⟩ := by
      obtain rfl | rfl := isQuote <;> rfl
    apply passes_cons fun _ => by obtain rfl | rfl := isQuote <;> decide
    rw [opened, ← List.singleton_append, ← List.append_assoc]
    exact (passes_quoted depth inside).append (ih deep)
  | @parens _ text rest _ _ ihInside ih =>
    have opened : Nesting.after ⟨none, depth⟩ '(' = ⟨none, depth + 1⟩ := rfl
    have closed : Nesting.after ⟨none, depth + 1⟩ ')' = ⟨none, depth⟩ := rfl
    apply passes_cons fun _ => by decide
    rw [opened]
    apply (ihInside fun _ => Nat.succ_pos depth).append
    apply passes_cons fun _ => by decide
    rw [closed]
    exact ih deep
  | comma _ ih =>
    apply passes_cons
    · intro same
      have zero : depth = 0 := congrArg Nesting.depth same
      exact absurd (deep rfl) (zero ▸ Nat.lt_irrefl 0)
    · exact ih deep

theorem Passes.parts {text : Text} (passes : outside.Passes last text) : commaParts text = [text] := by
  have whole := passes []
  rw [List.append_nil] at whole
  rw [commaParts, whole]
  simp [splitFrom]

theorem Passes.parts_comma {text : Text} (passes : outside.Passes outside text) (rest : Text) :
    commaParts (text ++ ',' :: rest) = text :: commaParts rest := by
  rw [commaParts, passes, splitFrom_comma, List.append_nil]

end Nesting

/-- Sealed texts with commas between them are the parts that the commas cut. -/
theorem commaParts_intercalate {parts : List Text} (nonempty : parts ≠ [])
    (isSealed : ∀ part ∈ parts, Sealed false part) : commaParts ([','].intercalate parts) = parts := by
  induction parts with
  | nil => contradiction
  | cons part parts ih =>
    obtain ⟨here, later⟩ := List.forall_mem_cons.1 isSealed
    have passes : Nesting.outside.Passes Nesting.outside part := Nesting.passes_of_sealed here nofun
    cases parts with
    | nil =>
      rw [List.intercalate_singleton]
      exact passes.parts
    | cons next parts =>
      rw [List.intercalate_cons_cons, List.append_assoc, List.singleton_append, passes.parts_comma,
        ih (List.cons_ne_nil _ _) later]

end StyleScript
