import StyleScript.Proofs.StatementKnot

/-! Loops without bounds. One turn of a loop finds an item and the text that the next turn sees,
or it ends the loop. Where every turn that goes on leaves a shorter end of its text, a loop makes
no more turns than its text has characters; what the bounded readings find is what it finds. -/

namespace StyleScript.Reading

/-- What one turn of a loop comes to. -/
inductive Turn (ε σ α : Type) where
  | again (item : σ) (rest : Text)
  | ends (result : Except ε (α × Text))

section
variable {ε σ α : Type}

/-- The runs of a loop that come to an end: the items in their order, and how the last turn ended. -/
inductive Loops (turn : Text → Turn ε σ α) : Text → List σ → Except ε (α × Text) → Prop where
  | ends {text : Text} {result : Except ε (α × Text)} (turned : turn text = .ends result) : Loops turn text [] result
  | again {text rest : Text} {item : σ} {items : List σ} {result : Except ε (α × Text)}
      (turned : turn text = .again item rest) (later : Loops turn rest items result) :
      Loops turn text (item :: items) result

/-- An item found before what the later turns came to. -/
def added (add : σ → α → α) (item : σ) (result : Except ε (α × Text)) : Except ε (α × Text) :=
  result.map fun found => (add item found.1, found.2)

/-- A reading that is a loop: each turn that goes on takes a character, and from every text the
loop comes to an end, with what is read. -/
structure IsLoop (turn : Text → Turn ε σ α) (add : σ → α → α) (reading : Reading ε α) : Prop where
  shortens : ∀ text item rest, turn text = .again item rest → rest <:+ text ∧ rest.length < text.length
  terminates : ∀ text, ∃ items result,
    Loops turn text items result ∧ items.length ≤ text.length ∧ reading text = items.foldr (added add) result

/-- One turn taken off the beginning of a reading. -/
def Unrolls (turn : Text → Turn ε σ α) (add : σ → α → α) (reading : Reading ε α) (text : Text) : Prop :=
  match turn text with
  | .ends result => reading text = result
  | .again item rest => (rest <:+ text ∧ rest.length < text.length) ∧ reading text = added add item (reading rest)

theorem isLoop_of_unrolls {turn : Text → Turn ε σ α} {add : σ → α → α} {reading : Reading ε α}
    (unrolls : ∀ text, Unrolls turn add reading text) : IsLoop turn add reading := by
  constructor
  case shortens =>
    intro text item rest turned
    have once := unrolls text
    rw [Unrolls, turned] at once
    exact once.1
  case terminates =>
    intro text
    induction size : text.length using Nat.strongRecOn generalizing text with
    | ind size ih =>
      subst size
      have once := unrolls text
      rw [Unrolls] at once
      cases turned : turn text with
      | ends result =>
        rw [turned] at once
        exact ⟨[], result, .ends turned, Nat.zero_le _, once⟩
      | again item rest =>
        rw [turned] at once
        obtain ⟨⟨-, shorter⟩, reads⟩ := once
        obtain ⟨items, result, later, few, found⟩ := ih rest.length shorter rest rfl
        refine ⟨item :: items, result, .again turned later, Nat.lt_of_le_of_lt few shorter, ?_⟩
        rw [reads, found]
        rfl

end
end StyleScript.Reading

namespace StyleScript.Parser
open Reading

section
variable {α : Type}

def turn (parser : Parser α) (text : Text) : Turn Text α (List α) :=
  match parser text with
  | .ok (value, rest) => .again value rest
  | .error _ => .ends (.ok ([], text))

theorem isLoop_many {parser : Parser α} (progresses : parser.Progresses) :
    IsLoop (turn parser) List.cons (many parser) := by
  apply isLoop_of_unrolls
  intro text
  rw [Unrolls, turn]
  rcases result : parser text with place | ⟨value, rest⟩
  · exact (many_eq_ok progresses).2 (.inl ⟨rfl, rfl, place, result⟩)
  · obtain ⟨values, left, later⟩ := exists_many progresses rest
    refine ⟨progresses text value rest result, ?_⟩
    rw [later]
    exact (many_eq_ok progresses).2 (.inr ⟨value, values, rest, rfl, result, later⟩)

end
end StyleScript.Parser

namespace StyleScript.Statement.Grammar
open Reading Trivia

section
variable (sheet : Sheet)

/-- One item of a block; a semicolon between statements is an item with nothing in it. -/
def itemsTurn (text : Text) : Turn Fault (Option Statement) (List Statement) :=
  let start := skip text
  if start = [] ∨ start.head? = some '}' then .ends (.ok ([], start))
  else if start.head? = some ';' then .again none start.tail
  else
    match statement sheet (items sheet) start with
    | .ok (statement, rest) => .again (some statement) rest
    | .error fault => .ends (.error fault)

def addItem (item : Option Statement) (others : List Statement) : List Statement := item.toList ++ others

/-- A condition and the block after it. -/
def guarded : Reading Fault (Text × List Statement) := do
  let condition ← expression sheet
  return (condition, ← block sheet (items sheet))

/-- One branch after a block. -/
def branchTurn (text : Text) : Turn Fault (Site × Text × List Statement) Otherwise :=
  match Parser.keyword "@else" (skip text) with
  | .error _ => .ends (.ok (.nothing, text))
  | .ok (_, afterElse) =>
    let start := skip afterElse
    match Parser.keyword "if" start with
    | .error _ => .ends (lastBlock sheet (items sheet) start)
    | .ok (_, afterIf) =>
      match guarded sheet afterIf with
      | .ok (branch, rest) => .again (sheet.siteOf start, branch) rest
      | .error fault => .ends (.error fault)

def addBranch (branch : Site × Text × List Statement) (next : Otherwise) : Otherwise :=
  .condition branch.1 branch.2.1 branch.2.2 next

end

section
variable {sheet : Sheet} {text rest : Text}

theorem itemsTurn_end (ends : skip text = [] ∨ (skip text).head? = some '}') :
    itemsTurn sheet text = .ends (.ok ([], skip text)) := if_pos ends

theorem itemsTurn_semicolon (same : skip text = ';' :: rest) : itemsTurn sheet text = .again none rest := by
  rw [itemsTurn, same]
  simp

theorem itemsTurn_statement (nonempty : skip text ≠ []) (brace : (skip text).head? ≠ some '}')
    (semicolon : (skip text).head? ≠ some ';') :
    itemsTurn sheet text =
      match statement sheet (items sheet) (skip text) with
      | .ok (statement, rest) => .again (some statement) rest
      | .error fault => .ends (.error fault) := by
  simp only [itemsTurn, nonempty, brace, semicolon, or_self, if_false]

end

theorem unrolls_items (sheet : Sheet) (text : Text) : Unrolls (itemsTurn sheet) addItem (items sheet) text := by
  have once := congrFun (items_eq sheet) text
  obtain ends | ⟨rest, same, shorter⟩ | ⟨nonempty, brace, semicolon⟩ := items_cases text
  · rw [Unrolls, itemsTurn_end ends]
    exact once.trans (itemsStep_end rfl ends)
  · rw [Unrolls, itemsTurn_semicolon same]
    have inside := skip_suffix text
    rw [same] at inside
    refine ⟨⟨(List.suffix_cons _ _).trans inside, shorter⟩, ?_⟩
    rw [once, itemsStep_semicolon same]
    cases items sheet rest <;> rfl
  · rw [Unrolls, itemsTurn_statement nonempty brace semicolon]
    rw [itemsStep_statement rfl nonempty brace semicolon] at once
    rcases reads : statement sheet (items sheet) (skip text) with fault | ⟨statement, rest⟩
    · exact once.trans (bind_eq_error.2 (.inl reads))
    · obtain ⟨inside, shorter⟩ := progresses_statement (proceeds_items sheet) _ _ _ reads
      have within := skip_suffix text
      refine ⟨⟨inside.trans within, Nat.lt_of_lt_of_le shorter within.length_le⟩, ?_⟩
      exact once.trans ((bind_of_reads reads _).trans (bind_pure_eq_map _ (addItem (some statement)) rest))

theorem isLoop_items (sheet : Sheet) : IsLoop (itemsTurn sheet) addItem (items sheet) :=
  isLoop_of_unrolls (unrolls_items sheet)

theorem progresses_guarded (sheet : Sheet) : (guarded sheet).Progresses :=
  (progresses_expression sheet).bind fun _ =>
    (progresses_block sheet (proceeds_items sheet)).proceeds.bind fun _ => proceeds_pure _

theorem elseIf_eq (sheet : Sheet) (next : Reading Fault Otherwise) (start : Text) :
    elseIf sheet (items sheet) next start = (do
      let branch ← guarded sheet
      return addBranch (sheet.siteOf start, branch) (← next)) := by
  simp [elseIf, cutSite_bind, guarded, addBranch]

section
variable {sheet : Sheet} {text afterElse afterIf : Text}

theorem branchTurn_nothing (refuses : (Parser.keyword "@else").Refuses (skip text)) :
    branchTurn sheet text = .ends (.ok (.nothing, text)) := by
  obtain ⟨place, fails⟩ := refuses
  rw [branchTurn, fails]

theorem branchTurn_else (reads : Parser.keyword "@else" (skip text) = .ok ((), afterElse))
    (refuses : (Parser.keyword "if").Refuses (skip afterElse)) :
    branchTurn sheet text = .ends (lastBlock sheet (items sheet) (skip afterElse)) := by
  obtain ⟨place, fails⟩ := refuses
  simp only [branchTurn, reads, fails]

theorem branchTurn_if (reads : Parser.keyword "@else" (skip text) = .ok ((), afterElse))
    (word : Parser.keyword "if" (skip afterElse) = .ok ((), afterIf)) :
    branchTurn sheet text =
      match guarded sheet afterIf with
      | .ok (branch, rest) => .again (sheet.siteOf (skip afterElse), branch) rest
      | .error fault => .ends (.error fault) := by
  simp only [branchTurn, reads, word]

end

theorem unrolls_follow (sheet : Sheet) (text : Text) :
    Unrolls (branchTurn sheet) addBranch (follow sheet (items sheet)) text := by
  have whole : follow sheet (items sheet) = otherwiseStep sheet (items sheet) (follow sheet (items sheet)) :=
    follow_eq (proceeds_items sheet)
  have once := congrFun whole text
  obtain refuses | ⟨afterElse, word, -, refuses | ⟨afterIf, more, shorter⟩⟩ := otherwiseStep_cases text
  · rw [Unrolls, branchTurn_nothing refuses]
    exact once.trans (otherwiseStep_nothing refuses)
  · rw [Unrolls, branchTurn_else word refuses]
    exact once.trans (otherwiseStep_else word refuses)
  · rw [Unrolls, branchTurn_if word more]
    rw [otherwiseStep_if word more, elseIf_eq] at once
    rcases reads : guarded sheet afterIf with fault | ⟨branch, rest⟩
    · exact once.trans (bind_eq_error.2 (.inl reads))
    · obtain ⟨inside, fewer⟩ := progresses_guarded sheet _ _ _ reads
      have first := (Parser.proceeds_keyword _ _ _ _ word).trans (skip_suffix text)
      have second := (Parser.proceeds_keyword _ _ _ _ more).trans (skip_suffix afterElse)
      refine ⟨⟨inside.trans (second.trans first), Nat.lt_trans fewer shorter⟩, ?_⟩
      exact once.trans ((bind_of_reads reads _).trans (bind_pure_eq_map _ (addBranch _) rest))

theorem isLoop_follow (sheet : Sheet) : IsLoop (branchTurn sheet) addBranch (follow sheet (items sheet)) :=
  isLoop_of_unrolls (unrolls_follow sheet)

end StyleScript.Statement.Grammar
