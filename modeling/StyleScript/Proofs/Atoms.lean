import StyleScript.Proofs.Tokens

/-! What an atom takes. Its alternatives begin with different characters, except that constants,
calls and bare words all begin as identifiers do; among those the order of the alternatives
counts. -/

namespace StyleScript.Name

theorem isDigit_of_startsIdentifier {c : Char} (starts : startsIdentifier c = true) : c.isDigit = false := by
  have alpha : c.isAlpha =
      (decide ('A'.val ≤ c.val ∧ c.val ≤ 'Z'.val) || decide ('a'.val ≤ c.val) && decide (c.val ≤ 'z'.val)) :=
    rfl
  cases digit : c.isDigit with
  | false => rfl
  | true =>
    have bounds := Char.isDigit_iff_toNat.1 digit
    simp only [startsIdentifier, alpha, Bool.or_eq_true, Bool.and_eq_true, decide_eq_true_eq, beq_iff_eq,
      UInt32.le_iff_toNat_le] at starts
    simp only [Char.toNat] at bounds
    obtain (upper | lower) | rfl := starts
    · have least : 'A'.val.toNat = 65 := rfl
      have most : '9'.val.toNat = 57 := rfl
      omega
    · have least : 'a'.val.toNat = 97 := rfl
      have most : '9'.val.toNat = 57 := rfl
      omega
    · cases digit

theorem continues_of_isIdentifier {name : Text} (identifier : isIdentifier name = true) :
    ∀ c ∈ name, continues c = true := by
  rcases name with _ | ⟨c, name⟩
  · cases identifier
  · simp only [isIdentifier, Bool.and_eq_true, List.all_eq_true] at identifier
    intro d member
    obtain rfl | member := List.mem_cons.1 member
    · exact continues_of_startsIdentifier identifier.1
    · exact identifier.2 d member

theorem exists_cons_of_isIdentifier {name : Text} (identifier : isIdentifier name = true) :
    ∃ c tail, name = c :: tail ∧ startsIdentifier c = true := by
  rcases name with _ | ⟨c, name⟩
  · cases identifier
  · exact ⟨c, name, rfl, (Bool.and_eq_true _ _ ▸ identifier).1⟩

end StyleScript.Name

namespace StyleScript.Expr.Grammar
open Reading StyleScript.Parser Text

def constants : List (Text × Expr) :=
  [("true".toList, .literal (.boolean true)), ("false".toList, .literal (.boolean false)),
    ("null".toList, .literal .null)]

theorem takes_word {word : String} {meaning expr : Expr} {taken rest : Text} :
    (do keyword word; return meaning : Parser Expr).Takes taken expr rest ↔
      taken = word.toList ∧ Stops Name.continues rest ∧ expr = meaning := by
  rw [takes_bind_pure]
  simp [takes_keyword, and_assoc]

theorem takes_constant {taken rest : Text} {expr : Expr} :
    constant.Takes taken expr rest ↔ (taken, expr) ∈ constants ∧ Stops Name.continues rest := by
  have refuses {word : String} {meaning : Expr} {text : Text} (refuses : (keyword word).Refuses text) :
      (do keyword word; return meaning : Parser Expr).Refuses text := refuses_bind.2 (.inl refuses)
  rw [constant]
  simp only [takes_orElse, takes_word, constants, List.mem_cons, Prod.mk.injEq, List.not_mem_nil, or_false]
  constructor
  · intro found
    obtain ⟨rfl, stops, rfl⟩ | ⟨-, ⟨rfl, stops, rfl⟩ | ⟨-, rfl, stops, rfl⟩⟩ := found
    · exact ⟨.inl ⟨rfl, rfl⟩, stops⟩
    · exact ⟨.inr (.inl ⟨rfl, rfl⟩), stops⟩
    · exact ⟨.inr (.inr ⟨rfl, rfl⟩), stops⟩
  · intro found
    obtain ⟨⟨rfl, rfl⟩ | ⟨rfl, rfl⟩ | ⟨rfl, rfl⟩, stops⟩ := found
    · exact .inl ⟨rfl, stops, rfl⟩
    · exact .inr ⟨refuses (refuses_keyword_of_head (by decide) (by decide)), .inl ⟨rfl, stops, rfl⟩⟩
    · exact .inr ⟨refuses (refuses_keyword_of_head (by decide) (by decide)),
        .inr ⟨refuses (refuses_keyword_of_head (by decide) (by decide)), rfl, stops, rfl⟩⟩

theorem refuses_constant_of_ne {run rest : Text} (inside : ∀ c ∈ run, Name.continues c = true)
    (stops : Stops Name.continues rest) (different : run ∉ constants.map Prod.fst) :
    constant.Refuses (run ++ rest) := by
  have word (word : String) (meaning : Expr) (member : (word.toList, meaning) ∈ constants)
      (letters : word.toList.all Name.continues = true) :
      (do keyword word; return meaning : Parser Expr).Refuses (run ++ rest) := by
    refine refuses_bind.2 (.inl (refuses_keyword_of_ne inside stops letters ?_))
    rintro rfl
    exact different (List.mem_map_of_mem member)
  exact refuses_orElse.2 ⟨word _ _ (by simp [constants]) (by decide),
    refuses_orElse.2 ⟨word _ _ (by simp [constants]) (by decide), word _ _ (by simp [constants]) (by decide)⟩⟩

theorem takes_bareWord {taken rest : Text} {expr : Expr} :
    bareWord.Takes taken expr rest ↔
      Name.isIdentifier taken = true ∧ expr = .literal (.string taken false) ∧ Stops Name.continues rest := by
  rw [bareWord, takes_bind_pure]
  simp only [takes_identifier]
  constructor
  · intro found
    obtain ⟨_, ⟨rfl, identifier, stops⟩, rfl⟩ := found
    exact ⟨identifier, rfl, stops⟩
  · intro found
    obtain ⟨identifier, rfl, stops⟩ := found
    exact ⟨taken, ⟨rfl, identifier, stops⟩, rfl⟩

section
variable {inner : Parser Expr} (proceeds : inner.Proceeds)
include proceeds

theorem takes_group {taken rest : Text} {expr : Expr} :
    (group inner).Takes taken expr rest ↔
      ∃ inside gap, taken = '(' :: (inside ++ (gap ++ [')'])) ∧ (∀ c ∈ gap, isBlank c = true) ∧
        inner.Takes inside expr (gap ++ ')' :: rest) := by
  simp (disch := grind) only [group, takes_char_bind, takes_bind proceeds, takes_blanks_bind,
    takes_bind_pure, takes_char]
  constructor
  · intro found
    obtain ⟨_, rfl, _, inside, _, rfl, reads, gap, _, rfl, blank, -, _, rfl, rfl⟩ := found
    refine ⟨inside, gap, rfl, blank, ?_⟩
    rw [List.append_assoc] at reads
    exact reads
  · intro found
    obtain ⟨inside, gap, rfl, blank, reads⟩ := found
    refine ⟨_, rfl, expr, inside, _, rfl, ?_, gap, _, rfl, blank, stops_cons.2 (by decide), (), rfl, rfl⟩
    rw [List.append_assoc]
    exact reads

theorem takes_argument {taken value rest : Text} :
    (argument inner).Takes taken value rest ↔
      ∃ gap expr, taken = gap ++ value ∧ (∀ c ∈ gap, isBlank c = true) ∧ Stops isBlank (value ++ rest) ∧
        inner.Takes value expr rest := by
  rw [argument, takes_blanks_bind (proceeds_span proceeds)]
  simp only [takes_span]
  constructor
  · intro found
    obtain ⟨gap, _, rfl, blank, stops, rfl, expr, reads⟩ := found
    exact ⟨gap, expr, rfl, blank, stops, reads⟩
  · intro found
    obtain ⟨gap, expr, rfl, blank, stops, reads⟩ := found
    exact ⟨gap, value, rfl, blank, stops, rfl, expr, reads⟩

theorem takes_nextArgument {taken value rest : Text} :
    (do blanks; char ','; argument inner : Parser Text).Takes taken value rest ↔
      ∃ gap written, taken = gap ++ ',' :: written ∧ (∀ c ∈ gap, isBlank c = true) ∧
        (argument inner).Takes written value rest := by
  simp (disch := grind) only [takes_blanks_bind, takes_char_bind]
  constructor
  · intro found
    obtain ⟨gap, _, rfl, blank, -, written, rfl, reads⟩ := found
    exact ⟨gap, written, rfl, blank, reads⟩
  · intro found
    obtain ⟨gap, written, rfl, blank, reads⟩ := found
    exact ⟨gap, ',' :: written, rfl, blank, stops_cons.2 (by decide), written, rfl, reads⟩

theorem takes_arguments {taken rest : Text} {values : List Text} :
    (arguments inner).Takes taken values rest ↔
      values = [] ∧ taken = [] ∧ (argument inner).Refuses rest ∨
        ∃ value others first second, values = value :: others ∧ taken = first ++ second ∧
          (argument inner).Takes first value (second ++ rest) ∧
          (many (do blanks; char ','; argument inner)).Takes second others rest := by
  have later := proceeds_many (progresses_nextArgument proceeds).proceeds
  rw [arguments, takes_bind (proceeds_optional (proceeds_argument proceeds))]
  · simp only [takes_optional]
    constructor
    · intro found
      obtain ⟨_, first, second, rfl, ⟨value, rfl, reads⟩ | ⟨rfl, rfl, refuses⟩, last⟩ := found
      · obtain ⟨others, tail, rfl⟩ := takes_bind_pure.1 last
        exact .inr ⟨value, others, first, second, rfl, rfl, reads, tail⟩
      · obtain ⟨rfl, rfl⟩ := takes_pure.1 last
        exact .inl ⟨rfl, rfl, refuses⟩
    · intro found
      obtain ⟨rfl, rfl, refuses⟩ | ⟨value, others, first, second, rfl, rfl, reads, tail⟩ := found
      · exact ⟨none, [], [], rfl, .inr ⟨rfl, rfl, refuses⟩, takes_pure.2 ⟨rfl, rfl⟩⟩
      · exact ⟨some value, first, second, rfl, .inl ⟨value, rfl, reads⟩, takes_bind_pure.2 ⟨others, tail, rfl⟩⟩
  · intro first
    cases first with
    | none => exact proceeds_pure _
    | some first => exact later.bind fun _ => proceeds_pure _

theorem takes_call {taken rest : Text} {expr : Expr} :
    (call inner).Takes taken expr rest ↔
      ∃ name values inside gap, taken = name ++ '(' :: (inside ++ (gap ++ [')'])) ∧ Name.isIdentifier name = true ∧
        (∀ c ∈ gap, isBlank c = true) ∧ (arguments inner).Takes inside values (gap ++ ')' :: rest) ∧
        expr = .call name values := by
  simp (disch := grind) only [call, takes_identifier_bind, takes_char_bind, takes_bind (proceeds_arguments proceeds),
    takes_blanks_bind, takes_bind_pure, takes_char]
  constructor
  · intro found
    obtain ⟨name, _, rfl, identifier, -, _, rfl, values, inside, _, rfl, reads, gap, _, rfl, blank, -, _, rfl,
      rfl⟩ := found
    refine ⟨name, values, inside, gap, rfl, identifier, blank, ?_, rfl⟩
    rw [List.append_assoc] at reads
    exact reads
  · intro found
    obtain ⟨name, values, inside, gap, rfl, identifier, blank, reads, rfl⟩ := found
    refine ⟨name, _, rfl, identifier, stops_cons.2 (by decide), _, rfl, values, inside, _, rfl, ?_, gap, _, rfl, blank,
      stops_cons.2 (by decide), (), rfl, rfl⟩
    rw [List.append_assoc]
    exact reads

end

end StyleScript.Expr.Grammar
