import StyleScript.Parser.Word
import StyleScript.Proofs.Taking
import Mathlib.Data.List.Basic

/-! What the smallest parsers take. Each takes as much as its class of characters allows, so what
is left stops the class: it is empty or goes on with a character outside of it. -/

namespace StyleScript.Text

def Stops (test : Char → Bool) (rest : Text) : Prop := ∀ c, rest.head? = some c → test c = false

@[simp]
theorem stops_nil (test : Char → Bool) : Stops test [] := by
  intro c found
  cases found

@[simp]
theorem stops_cons {test : Char → Bool} {c : Char} {rest : Text} : Stops test (c :: rest) ↔ test c = false := by
  simp [Stops]

theorem Stops.mono {wide narrow : Char → Bool} {rest : Text} (stops : Stops wide rest)
    (within : ∀ c, narrow c = true → wide c = true) : Stops narrow rest := by
  intro c found
  have outside := stops c found
  cases inside : narrow c with
  | false => rfl
  | true => rw [within c inside] at outside; cases outside

theorem eq_false_of_any {marks : List Char} {test : Char → Bool} (outside : marks.any test = false) {c : Char}
    (member : c ∈ marks) : test c = false := by
  have inside := List.any_eq_false.1 outside c member
  rw [Bool.not_eq_true] at inside
  exact inside

theorem stops_congr {test : Char → Bool} {first second : Text} (same : first.head? = second.head?) :
    Stops test first ↔ Stops test second := by
  rw [Stops, Stops, same]

theorem head?_append_congr {taken : Text} (nonempty : taken ≠ []) (rest next : Text) :
    (taken ++ rest).head? = (taken ++ next).head? := by
  rw [List.head?_append_of_ne_nil taken nonempty, List.head?_append_of_ne_nil taken nonempty]

theorem takeWhile_append_of_stops {test : Char → Bool} {taken rest : Text} (inside : ∀ c ∈ taken, test c = true)
    (stops : Stops test rest) : (taken ++ rest).takeWhile test = taken ∧ (taken ++ rest).dropWhile test = rest := by
  rw [List.takeWhile_append_of_pos inside, List.dropWhile_append_of_pos inside]
  rcases rest with _ | ⟨c, rest⟩
  · simp
  · rw [stops_cons] at stops
    simp [stops]

theorem stops_dropWhile (test : Char → Bool) (text : Text) : Stops test (text.dropWhile test) := by
  intro c found
  have outside := List.head?_dropWhile_not test text
  rw [found] at outside
  exact outside

theorem stops_of_takeWhile {test : Char → Bool} {text : Text} (empty : text.takeWhile test = []) : Stops test text := by
  rcases text with _ | ⟨c, rest⟩
  · exact stops_nil test
  · cases inside : test c with
    | false => exact stops_cons.2 inside
    | true => simp [inside] at empty

/-- Blanks before a text that begins with something else are all that is dropped. -/
theorem dropBlanks_append {gap rest : Text} (blank : ∀ c ∈ gap, isBlank c = true) (stops : Stops isBlank rest) :
    dropBlanks (gap ++ rest) = rest :=
  (takeWhile_append_of_stops blank stops).2

theorem exists_blanks (text : Text) :
    ∃ gap rest, text = gap ++ rest ∧ (∀ c ∈ gap, isBlank c = true) ∧ Stops isBlank rest ∧ dropBlanks text = rest := by
  refine ⟨text.takeWhile isBlank, text.dropWhile isBlank, List.takeWhile_append_dropWhile.symm, ?_,
    stops_dropWhile _ _, rfl⟩
  exact List.all_eq_true.1 List.all_takeWhile

end StyleScript.Text

namespace StyleScript.Parser
open Reading Text
variable {α : Type}

theorem char_eq_ok {expected : Char} {text rest : Text} {value : Unit} :
    char expected text = .ok (value, rest) ↔ text = expected :: rest := by
  rcases text with _ | ⟨c, text⟩
  · simp [char]
  · by_cases same : c = expected <;> simp [char, same]

theorem takes_char {expected : Char} {taken rest : Text} {value : Unit} :
    (char expected).Takes taken value rest ↔ taken = [expected] := by
  rw [Takes, char_eq_ok, ← List.singleton_append, List.append_cancel_right_eq]

@[grind ←]
theorem progresses_char (expected : Char) : (char expected).Progresses := by
  intro text value rest reads
  rw [char_eq_ok.1 reads]
  exact ⟨List.suffix_cons _ _, Nat.lt_succ_self _⟩

theorem takes_char_bind {expected : Char} {next : Unit → Parser α} {taken rest : Text} {value : α}
    (later : (next ()).Proceeds) :
    (char expected >>= next).Takes taken value rest ↔
    ∃ tail, taken = expected :: tail ∧ (next ()).Takes tail value rest := by
  rw [takes_bind (progresses_char _).proceeds fun _ => later]
  simp only [takes_char]
  constructor
  · intro found
    obtain ⟨_, _, tail, rfl, rfl, continues⟩ := found
    exact ⟨tail, rfl, continues⟩
  · intro found
    obtain ⟨tail, rfl, continues⟩ := found
    exact ⟨(), [expected], tail, rfl, rfl, continues⟩

theorem refuses_char {expected : Char} {text : Text} : (char expected).Refuses text ↔ text.head? ≠ some expected := by
  rcases text with _ | ⟨c, text⟩
  · simp [Refuses, char]
  · by_cases same : c = expected <;> simp [Refuses, char, same]

theorem takes_takeWhile {test : Char → Bool} {taken value rest : Text} :
    (takeWhile test).Takes taken value rest ↔ value = taken ∧ (∀ c ∈ taken, test c = true) ∧ Stops test rest := by
  simp only [Takes, takeWhile, Except.ok.injEq, Prod.mk.injEq]
  constructor
  · intro found
    obtain ⟨run, left⟩ := found
    have whole := List.takeWhile_append_dropWhile (p := test) (l := taken ++ rest)
    rw [left] at whole
    have same := List.append_cancel_right whole
    have inside := List.all_eq_true.1 (List.all_takeWhile (p := test) (l := taken ++ rest))
    rw [same] at run inside
    exact ⟨run.symm, inside, left ▸ stops_dropWhile test (taken ++ rest)⟩
  · intro found
    obtain ⟨same, inside, stops⟩ := found
    have run := takeWhile_append_of_stops inside stops
    exact ⟨run.1.trans same.symm, run.2⟩

@[grind ←]
theorem proceeds_takeWhile (test : Char → Bool) : (takeWhile test).Proceeds := by
  intro text value rest reads
  cases reads
  exact List.dropWhile_suffix _

theorem refuses_takeWhile1 {test : Char → Bool} {text : Text} :
    (takeWhile1 test).Refuses text ↔ Stops test text := by
  rw [Refuses, takeWhile1]
  constructor
  · intro found
    obtain ⟨place, fails⟩ := found
    split at fails
    next empty => exact stops_of_takeWhile empty
    next => cases fails
  · intro stops
    rcases text with _ | ⟨c, text⟩
    · exact ⟨[], rfl⟩
    · exact ⟨c :: text, by simp [stops_cons.1 stops]⟩

theorem takes_takeWhile1 {test : Char → Bool} {taken value rest : Text} :
    (takeWhile1 test).Takes taken value rest ↔
      value = taken ∧ taken ≠ [] ∧ (∀ c ∈ taken, test c = true) ∧ Stops test rest := by
  have run : (takeWhile test).Takes taken value rest ↔ _ := takes_takeWhile
  rw [Takes] at run ⊢
  rw [takeWhile1]
  split
  next empty =>
    simp only [reduceCtorEq, false_iff]
    intro found
    obtain ⟨_, nonempty, inside, stops⟩ := found
    rw [(takeWhile_append_of_stops inside stops).1] at empty
    exact nonempty empty
  next nonempty =>
    rw [run]
    refine and_congr_right fun _ => ⟨?_, And.right⟩
    intro found
    obtain ⟨inside, stops⟩ := found
    rw [(takeWhile_append_of_stops inside stops).1] at nonempty
    exact ⟨nonempty, inside, stops⟩

@[grind ←]
theorem progresses_takeWhile1 (test : Char → Bool) : (takeWhile1 test).Progresses := by
  intro text value rest reads
  rw [takeWhile1] at reads
  split at reads
  next => cases reads
  next nonempty =>
    have inside := proceeds_takeWhile test _ _ _ reads
    refine ⟨inside, Nat.lt_of_le_of_ne inside.length_le ?_⟩
    intro same
    cases reads
    have whole := List.takeWhile_append_dropWhile (p := test) (l := text)
    have lengths := congrArg List.length whole
    rw [List.length_append] at lengths
    exact nonempty (List.length_eq_zero_iff.1 (by omega))

theorem exactly_eq_ok {expected text rest : Text} {value : Unit} :
    exactly expected text = .ok (value, rest) ↔ text = expected ++ rest := by
  have found : expected.isPrefixOf? text = some rest ↔ text = expected ++ rest := by
    induction expected generalizing text with
    | nil =>
      have all : ([] : Text).isPrefixOf? text = some text := by cases text <;> rfl
      simp [all]
    | cons c expected ih =>
      cases text with
      | nil =>
        have nothing : (c :: expected).isPrefixOf? [] = none := rfl
        simp [nothing]
      | cons d text =>
        have step : (c :: expected).isPrefixOf? (d :: text) = if c == d then expected.isPrefixOf? text else none := rfl
        rw [step, List.cons_append, List.cons.injEq]
        by_cases same : c = d
        · simp [same, ih]
        · simp [same, Ne.symm same]
  rw [← found, exactly]
  split
  next left reads => simp [reads]
  next reads => simp [reads]

theorem takes_exactly {expected taken rest : Text} {value : Unit} :
    (exactly expected).Takes taken value rest ↔ taken = expected := by
  rw [Takes, exactly_eq_ok, List.append_cancel_right_eq]

@[grind ←]
theorem proceeds_exactly (expected : Text) : (exactly expected).Proceeds := by
  intro text value rest reads
  rw [exactly_eq_ok.1 reads]
  exact List.suffix_append _ _

theorem takes_exactly_bind {expected : Text} {next : Unit → Parser α} {taken rest : Text} {value : α}
    (later : (next ()).Proceeds) :
    (exactly expected >>= next).Takes taken value rest ↔
      ∃ tail, taken = expected ++ tail ∧ (next ()).Takes tail value rest := by
  rw [takes_bind (proceeds_exactly _) fun _ => later]
  simp only [takes_exactly]
  constructor
  · intro found
    obtain ⟨_, _, tail, rfl, rfl, continues⟩ := found
    exact ⟨tail, rfl, continues⟩
  · intro found
    obtain ⟨tail, rfl, continues⟩ := found
    exact ⟨(), expected, tail, rfl, rfl, continues⟩

theorem progresses_exactly {expected : Text} (nonempty : expected ≠ []) : (exactly expected).Progresses := by
  intro text value rest reads
  rw [exactly_eq_ok.1 reads, List.length_append]
  have := List.length_pos_iff.2 nonempty
  exact ⟨List.suffix_append _ _, by omega⟩

theorem refuses_exactly {expected text : Text} : (exactly expected).Refuses text ↔ ¬ expected <+: text := by
  constructor
  · intro refuses ⟨rest, same⟩
    have reads : exactly expected text = .ok ((), rest) := exactly_eq_ok.2 same.symm
    exact not_refuses reads refuses
  · intro missing
    obtain refuses | ⟨value, rest, reads⟩ := refuses_or_reads (exactly expected) text
    · exact refuses
    · rw [exactly_eq_ok.1 reads] at missing
      exact absurd (List.prefix_append _ _) missing

theorem refuses_exactly_of_head {c d : Char} {expected text : Text} (different : d ≠ c) :
    (exactly (c :: expected)).Refuses (d :: text) := by
  rw [refuses_exactly]
  intro found
  obtain ⟨rest, same⟩ := found
  simp only [List.cons_append, List.cons.injEq] at same
  exact different same.1.symm

theorem takes_blanks {taken rest : Text} {value : Unit} :
    blanks.Takes taken value rest ↔ (∀ c ∈ taken, isBlank c = true) ∧ Stops isBlank rest := by
  have run : (takeWhile isBlank).Takes taken taken rest ↔ _ := takes_takeWhile
  simp only [true_and] at run
  rw [← run]
  simp only [Takes, blanks, takeWhile, dropBlanks, Except.ok.injEq, Prod.mk.injEq, true_and]
  constructor
  · intro left
    have whole := List.takeWhile_append_dropWhile (p := isBlank) (l := taken ++ rest)
    rw [left] at whole
    exact ⟨List.append_cancel_right whole, left⟩
  · exact And.right

@[grind ←]
theorem proceeds_blanks : blanks.Proceeds := by
  intro text value rest reads
  cases reads
  exact List.dropWhile_suffix _

theorem takes_blanks_bind {next : Unit → Parser α} {taken rest : Text} {value : α} (later : (next ()).Proceeds) :
    (blanks >>= next).Takes taken value rest ↔
      ∃ gap tail, taken = gap ++ tail ∧ (∀ c ∈ gap, isBlank c = true) ∧ Stops isBlank (tail ++ rest) ∧
        (next ()).Takes tail value rest := by
  rw [takes_bind proceeds_blanks fun _ => later]
  simp only [takes_blanks]
  constructor
  · intro found
    obtain ⟨_, gap, tail, rfl, ⟨blank, stops⟩, continues⟩ := found
    exact ⟨gap, tail, rfl, blank, stops, continues⟩
  · intro found
    obtain ⟨gap, tail, rfl, blank, stops, continues⟩ := found
    exact ⟨(), gap, tail, rfl, ⟨blank, stops⟩, continues⟩

theorem refuses_blanks_bind {next : Unit → Parser α} {text : Text} :
    (blanks >>= next).Refuses text ↔ (next ()).Refuses (dropBlanks text) :=
  refuses_bind_of_reads (show blanks text = .ok ((), dropBlanks text) from rfl)

theorem takes_blanks1 {taken rest : Text} {value : Unit} :
    blanks1.Takes taken value rest ↔ taken ≠ [] ∧ (∀ c ∈ taken, isBlank c = true) ∧ Stops isBlank rest := by
  rw [blanks1, takes_bind_pure]
  simp [takes_takeWhile1]

theorem progresses_blanks1 : blanks1.Progresses :=
  (progresses_takeWhile1 _).bind fun _ => proceeds_pure _

theorem refuses_blanks1 {text : Text} : blanks1.Refuses text ↔ Stops isBlank text := by
  rw [blanks1, refuses_bind, refuses_takeWhile1]
  apply or_iff_left
  intro found
  obtain ⟨_, _, _, _, impossible⟩ := found
  cases impossible

theorem takes_identifier {taken value rest : Text} :
    identifier.Takes taken value rest ↔
      value = taken ∧ Name.isIdentifier taken = true ∧ Stops Name.continues rest := by
  rcases taken with _ | ⟨c, taken⟩
  · rw [Takes, List.nil_append]
    simp only [Name.isIdentifier, Bool.false_eq_true, false_and, and_false, iff_false]
    rcases rest with _ | ⟨c, rest⟩
    · simp [identifier]
    · cases starts : Name.startsIdentifier c with
      | false => simp [identifier, starts]
      | true =>
        rw [identifier, if_pos starts]
        intro reads
        have stops := (takes_takeWhile.1 (show Takes _ [] value (c :: rest) from reads)).2.2
        rw [stops_cons, Name.continues_of_startsIdentifier starts] at stops
        cases stops
  · cases starts : Name.startsIdentifier c with
    | false => simp [Takes, identifier, Name.isIdentifier, starts]
    | true =>
      have run : (takeWhile Name.continues).Takes (c :: taken) value rest ↔ _ := takes_takeWhile
      rw [Takes, List.cons_append] at run ⊢
      rw [identifier, if_pos starts, run]
      simp [Name.isIdentifier, starts, Name.continues_of_startsIdentifier starts]

@[grind ←]
theorem progresses_identifier : identifier.Progresses := by
  intro text value rest reads
  rcases text with _ | ⟨c, text⟩
  · cases reads
  · rw [identifier] at reads
    split at reads
    next starts =>
      apply progresses_takeWhile1 Name.continues _ value _
      rw [takeWhile1, if_neg (by simp [Name.continues_of_startsIdentifier starts])]
      exact reads
    next => cases reads

theorem takes_identifier_bind {next : Text → Parser α} {taken rest : Text} {value : α}
    (later : ∀ name, (next name).Proceeds) :
    (identifier >>= next).Takes taken value rest ↔
      ∃ name tail, taken = name ++ tail ∧ Name.isIdentifier name = true ∧ Stops Name.continues (tail ++ rest) ∧
        (next name).Takes tail value rest := by
  rw [takes_bind progresses_identifier.proceeds later]
  simp only [takes_identifier]
  constructor
  · intro found
    obtain ⟨name, _, tail, rfl, ⟨rfl, identifier, stops⟩, continues⟩ := found
    exact ⟨name, tail, rfl, identifier, stops, continues⟩
  · intro found
    obtain ⟨name, tail, rfl, identifier, stops, continues⟩ := found
    exact ⟨name, name, tail, rfl, ⟨rfl, identifier, stops⟩, continues⟩

theorem refuses_identifier {text : Text} : identifier.Refuses text ↔ Stops Name.startsIdentifier text := by
  rcases text with _ | ⟨c, text⟩
  · simp [Refuses, identifier]
  · cases starts : Name.startsIdentifier c with
    | false => simp [Refuses, identifier, starts]
    | true => simp [Refuses, identifier, starts, takeWhile]

theorem nameEnd_eq_ok {text rest : Text} {value : Unit} :
    nameEnd text = .ok (value, rest) ↔ rest = text ∧ Stops Name.continues text := by
  rcases text with _ | ⟨c, text⟩
  · simp [nameEnd, eq_comm]
  · cases inside : Name.continues c <;> simp [nameEnd, inside, eq_comm]

theorem proceeds_nameEnd : nameEnd.Proceeds := by
  intro text value rest reads
  obtain ⟨same, -⟩ := nameEnd_eq_ok.1 reads
  subst same
  exact List.suffix_refl _

theorem keyword_eq_ok {word : String} {text rest : Text} {value : Unit} :
    keyword word text = .ok (value, rest) ↔ text = word.toList ++ rest ∧ Stops Name.continues rest := by
  rw [keyword, bind_eq_ok]
  simp only [exactly_eq_ok, nameEnd_eq_ok]
  constructor
  · intro found
    obtain ⟨_, _, same, left, stops⟩ := found
    rw [left]
    exact ⟨same, stops⟩
  · intro found
    obtain ⟨same, stops⟩ := found
    exact ⟨(), rest, same, rfl, stops⟩

theorem takes_keyword {word : String} {taken rest : Text} {value : Unit} :
    (keyword word).Takes taken value rest ↔ taken = word.toList ∧ Stops Name.continues rest := by
  rw [Takes, keyword_eq_ok, List.append_cancel_right_eq]

@[grind ←]
theorem proceeds_keyword (word : String) : (keyword word).Proceeds :=
  (proceeds_exactly _).bind fun _ => proceeds_nameEnd

theorem takes_keyword_bind {word : String} {next : Unit → Parser α} {taken rest : Text} {value : α}
    (later : (next ()).Proceeds) :
    (keyword word >>= next).Takes taken value rest ↔
      ∃ tail, taken = word.toList ++ tail ∧ Stops Name.continues (tail ++ rest) ∧ (next ()).Takes tail value rest := by
  rw [takes_bind (proceeds_keyword _) fun _ => later]
  simp only [takes_keyword]
  constructor
  · intro found
    obtain ⟨_, _, tail, rfl, ⟨rfl, stops⟩, continues⟩ := found
    exact ⟨tail, rfl, stops, continues⟩
  · intro found
    obtain ⟨tail, rfl, stops, continues⟩ := found
    exact ⟨(), word.toList, tail, rfl, ⟨rfl, stops⟩, continues⟩

theorem progresses_keyword {word : String} (nonempty : word.toList ≠ []) : (keyword word).Progresses :=
  (progresses_exactly nonempty).bind fun _ => proceeds_nameEnd

theorem refuses_keyword {word : String} {text : Text} :
    (keyword word).Refuses text ↔ ∀ rest, text = word.toList ++ rest → ¬ Stops Name.continues rest := by
  constructor
  · intro refuses rest same stops
    have reads : keyword word text = .ok ((), rest) := keyword_eq_ok.2 ⟨same, stops⟩
    exact not_refuses reads refuses
  · intro other
    obtain refuses | ⟨value, rest, reads⟩ := refuses_or_reads (keyword word) text
    · exact refuses
    · obtain ⟨same, stops⟩ := keyword_eq_ok.1 reads
      exact absurd stops (other rest same)

/-- A run of name characters that is another word is not read as this one. -/
theorem refuses_keyword_of_ne {word : String} {run rest : Text} (inside : ∀ c ∈ run, Name.continues c = true)
    (stops : Stops Name.continues rest) (letters : word.toList.all Name.continues = true)
    (different : run ≠ word.toList) : (keyword word).Refuses (run ++ rest) := by
  rw [refuses_keyword]
  intro left same ends
  have one := takeWhile_append_of_stops inside stops
  have other := takeWhile_append_of_stops (List.all_eq_true.1 letters) ends
  rw [← same] at other
  exact different (one.1.symm.trans other.1)

theorem refuses_keyword_nil {word : String} (nonempty : word.toList ≠ []) : (keyword word).Refuses [] := by
  rw [refuses_keyword]
  intro rest same
  exact absurd (List.append_eq_nil_iff.1 same.symm).1 nonempty

theorem refuses_keyword_of_head {word : String} {c : Char} {text : Text}
    (different : word.toList.head? ≠ some c) (nonempty : word.toList ≠ []) : (keyword word).Refuses (c :: text) := by
  rw [refuses_keyword]
  intro rest same
  rcases letters : word.toList with _ | ⟨d, letters⟩
  · exact absurd letters nonempty
  · rw [letters] at same different
    simp only [List.cons_append, List.cons.injEq, List.head?_cons, ne_eq, Option.some.injEq] at same different
    exact absurd same.1.symm different

end StyleScript.Parser
