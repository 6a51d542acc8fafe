import StyleScript.Proofs.Taking

/-! Recursion tied by a bound. A bounded reading takes one step after another for as long as its
bound has characters; each step asks for the reading itself only on shorter texts. With the text
as its own bound it is then a fixed point of the step, and the bound can be forgotten. -/

namespace StyleScript.Reading
variable {ε α β : Type}

def AgreeBelow (size : Nat) (first second : Reading ε α) : Prop :=
  ∀ text, text.length < size → first text = second text

def Contractive (step : Reading ε α → Reading ε α) : Prop :=
  ∀ size first second, first.Proceeds → AgreeBelow size first second →
    AgreeBelow (size + 1) (step first) (step second)

theorem agreeBelow_refl (size : Nat) (reading : Reading ε α) : AgreeBelow size reading reading :=
  fun _ _ => rfl

theorem AgreeBelow.symm {size : Nat} {first second : Reading ε α} (agree : AgreeBelow size first second) :
    AgreeBelow size second first :=
  fun text shorter => (agree text shorter).symm

theorem AgreeBelow.mono {size smaller : Nat} {first second : Reading ε α} (agree : AgreeBelow size first second)
    (below : smaller ≤ size) : AgreeBelow smaller first second :=
  fun text shorter => agree text (Nat.lt_of_lt_of_le shorter below)

theorem AgreeBelow.bind {size : Nat} {first second : Reading ε α} {next other : α → Reading ε β}
    (proceeds : first.Proceeds) (agree : AgreeBelow size first second)
    (later : ∀ value, AgreeBelow size (next value) (other value)) :
    AgreeBelow size (first >>= next) (second >>= other) := by
  intro text shorter
  change followedBy first next text = followedBy second other text
  rw [followedBy, followedBy, ← agree text shorter]
  rcases reads : first text with cause | ⟨value, rest⟩
  · rfl
  · exact later value rest (Nat.lt_of_le_of_lt (proceeds _ _ _ reads).length_le shorter)

theorem Proceeds.agreeBelow_bind {size : Nat} {reading : Reading ε α} {next other : α → Reading ε β}
    (proceeds : reading.Proceeds) (later : ∀ value, AgreeBelow size (next value) (other value)) :
    AgreeBelow size (reading >>= next) (reading >>= other) :=
  .bind proceeds (agreeBelow_refl _ _) later

theorem AgreeBelow.bind_left {size : Nat} {first second : Reading ε α} (agree : AgreeBelow size first second)
    (next : α → Reading ε β) : AgreeBelow size (first >>= next) (second >>= next) := by
  intro text shorter
  change followedBy first next text = followedBy second next text
  rw [followedBy, followedBy, agree text shorter]

/-- What comes after a character was taken sees a shorter text. -/
theorem AgreeBelow.bind_progresses {size : Nat} {first second : Reading ε α} {next other : α → Reading ε β}
    (progresses : first.Progresses) (agree : AgreeBelow (size + 1) first second)
    (later : ∀ value, AgreeBelow size (next value) (other value)) :
    AgreeBelow (size + 1) (first >>= next) (second >>= other) := by
  intro text shorter
  change followedBy first next text = followedBy second other text
  rw [followedBy, followedBy, ← agree text shorter]
  rcases reads : first text with cause | ⟨value, rest⟩
  · rfl
  · have := (progresses _ _ _ reads).2
    exact later value rest (by omega)

theorem Progresses.agreeBelow_bind {size : Nat} {reading : Reading ε α} {next other : α → Reading ε β}
    (progresses : reading.Progresses) (later : ∀ value, AgreeBelow size (next value) (other value)) :
    AgreeBelow (size + 1) (reading >>= next) (reading >>= other) :=
  .bind_progresses progresses (agreeBelow_refl _ _) later

section
variable {bounded : Text → Reading ε α} {step : Reading ε α → Reading ε α}

theorem agreeBelow_of_bounds (contractive : Contractive step) (proceeds : ∀ bound, (bounded bound).Proceeds)
    (start : ∀ reading, AgreeBelow 1 (bounded []) (step reading))
    (next : ∀ c bound, bounded (c :: bound) = step (bounded bound)) (size : Nat) :
    ∀ first second : Text, size ≤ first.length + 1 → size ≤ second.length + 1 →
      AgreeBelow size (bounded first) (bounded second) := by
  induction size with
  | zero => exact fun _ _ _ _ _ shorter => absurd shorter (Nat.not_lt_zero _)
  | succ size ih =>
    intro first second enough sufficient
    rcases first with _ | ⟨c, first⟩ <;> rcases second with _ | ⟨d, second⟩
    · exact agreeBelow_refl _ _
    · rw [next]
      exact (start _).mono (by simpa using enough)
    · rw [next]
      exact (start _).symm.mono (by simpa using sufficient)
    · rw [next, next]
      simp only [List.length_cons] at enough sufficient
      exact contractive _ _ _ (proceeds _) (ih first second (by omega) (by omega))

/-- The knot: with the text as its bound, the reading is the step applied to itself. -/
theorem tied (bounded : Text → Reading ε α) (step : Reading ε α → Reading ε α) (contractive : Contractive step)
    (proceeds : ∀ bound, (bounded bound).Proceeds)
    (start : ∀ reading, AgreeBelow 1 (bounded []) (step reading))
    (next : ∀ c bound, bounded (c :: bound) = step (bounded bound)) :
    (fun text => bounded text text) = step (fun text => bounded text text) := by
  funext text
  rcases text with _ | ⟨c, rest⟩
  · exact start _ [] Nat.one_pos
  · rw [next]
    refine contractive (rest.length + 1) _ _ (proceeds rest) ?_ _ (Nat.lt_succ_self _)
    intro shorter below
    exact agreeBelow_of_bounds contractive proceeds start next (shorter.length + 1) rest shorter
      (by omega) (Nat.le_refl _) shorter (Nat.lt_succ_self _)

end
end Reading

namespace Parser
open Reading
variable {α : Type}

theorem agreeBelow_orElse {size : Nat} {first second other another : Parser α} (one : AgreeBelow size first other)
    (two : AgreeBelow size second another) : AgreeBelow size (first <|> second) (other <|> another) := by
  intro text shorter
  change either first second text = either other another text
  rw [either, either, one text shorter, two text shorter]

theorem agreeBelow_optional {size : Nat} {first second : Parser α} (agree : AgreeBelow size first second) :
    AgreeBelow size (optional first) (optional second) := by
  intro text shorter
  rw [optional, optional, agree text shorter]

theorem agreeBelow_span {size : Nat} {first second : Parser α} (agree : AgreeBelow size first second) :
    AgreeBelow size (span first) (span second) := by
  intro text shorter
  rw [span, span, agree text shorter]

private def manyStep (parser : Parser α) (items : Parser (List α)) : Parser (List α) := fun text =>
  match parser text with
  | .error _ => .ok ([], text)
  | .ok (value, rest) => (do return value :: (← items)) rest

private theorem proceeds_manyStep {parser : Parser α} {items : Parser (List α)} (proceeds : parser.Proceeds)
    (later : items.Proceeds) : (manyStep parser items).Proceeds := by
  intro text values rest reads
  rw [manyStep] at reads
  split at reads
  · cases reads
    exact List.suffix_refl _
  next value middle first =>
    have after : (do return value :: (← items) : Parser (List α)).Proceeds :=
      later.bind fun _ => proceeds_pure _
    exact (after _ _ _ reads).trans (proceeds _ _ _ first)

theorem proceeds_manyWithin {parser : Parser α} (proceeds : parser.Proceeds) :
    ∀ bound, (manyWithin parser bound).Proceeds
  | [] => proceeds_pure _
  | _ :: bound => proceeds_manyStep proceeds (proceeds_manyWithin proceeds bound)

@[grind ←]
theorem proceeds_many {parser : Parser α} (proceeds : parser.Proceeds) : (many parser).Proceeds :=
  fun text => proceeds_manyWithin proceeds text text

private theorem many_eq_step {parser : Parser α} (progresses : parser.Progresses) :
    many parser = manyStep parser (many parser) := by
  refine tied (manyWithin parser) (manyStep parser) ?_ (proceeds_manyWithin progresses.proceeds) ?_ (fun _ _ => rfl)
  · intro size first second _ agree text shorter
    rw [manyStep, manyStep]
    rcases reads : parser text with place | ⟨value, middle⟩
    · rfl
    · have := (progresses _ _ _ reads).2
      exact agree.bind_left _ middle (by omega)
  · intro items text shorter
    obtain rfl : text = [] := List.length_eq_zero_iff.1 (by omega)
    rw [manyStep]
    rcases reads : parser [] with place | ⟨value, middle⟩
    · rfl
    · exact absurd (progresses _ _ _ reads).2 (Nat.not_lt_zero _)

theorem many_eq_ok {parser : Parser α} (progresses : parser.Progresses) {text rest : Text} {values : List α} :
    many parser text = .ok (values, rest) ↔
      values = [] ∧ rest = text ∧ parser.Refuses text ∨
        ∃ value others middle, values = value :: others ∧ parser text = .ok (value, middle) ∧
          many parser middle = .ok (others, rest) := by
  rw [many_eq_step progresses, manyStep]
  rcases result : parser text with place | ⟨value, middle⟩
  · simp [Refuses, result, eq_comm]
  · have accepted : ¬ parser.Refuses text := not_refuses result
    simp only [accepted, and_false, false_or, bind_eq_ok, pure_eq_ok, Except.ok.injEq, Prod.mk.injEq]
    rw [← many_eq_step progresses]
    constructor
    · intro found
      obtain ⟨others, left, reads, rfl, rfl⟩ := found
      exact ⟨value, others, middle, rfl, ⟨rfl, rfl⟩, reads⟩
    · intro found
      obtain ⟨_, others, _, rfl, ⟨rfl, rfl⟩, reads⟩ := found
      exact ⟨others, rest, reads, rfl, rfl⟩

theorem takes_many {parser : Parser α} (progresses : parser.Progresses) {taken rest : Text} {values : List α} :
    (many parser).Takes taken values rest ↔
      values = [] ∧ taken = [] ∧ parser.Refuses rest ∨
        ∃ value others first second, values = value :: others ∧ taken = first ++ second ∧
          parser.Takes first value (second ++ rest) ∧ (many parser).Takes second others rest := by
  rw [Takes, many_eq_ok progresses, List.self_eq_append_left]
  have nothing : taken = [] ∧ parser.Refuses (taken ++ rest) ↔ taken = [] ∧ parser.Refuses rest :=
    and_congr_right fun empty => by rw [empty, List.nil_append]
  refine or_congr (and_congr_right fun _ => nothing) ⟨?_, ?_⟩
  · intro found
    obtain ⟨value, others, middle, rfl, reads, later⟩ := found
    obtain ⟨second, rfl, takes⟩ := (proceeds_many progresses.proceeds).takes later
    obtain ⟨first, same, before⟩ := progresses.proceeds.takes reads
    rw [← List.append_assoc] at same
    exact ⟨value, others, first, second, rfl, List.append_cancel_right same, before, takes⟩
  · intro found
    obtain ⟨value, others, first, second, rfl, rfl, before, takes⟩ := found
    exact ⟨value, others, second ++ rest, rfl, by rw [List.append_assoc]; exact before, takes⟩

/-- Repeating never fails. -/
theorem exists_many {parser : Parser α} (progresses : parser.Progresses) (text : Text) :
    ∃ values rest, many parser text = .ok (values, rest) := by
  induction size : text.length using Nat.strongRecOn generalizing text with
  | ind size ih =>
    subst size
    obtain refuses | ⟨value, middle, reads⟩ := refuses_or_reads parser text
    · exact ⟨[], text, (many_eq_ok progresses).2 (.inl ⟨rfl, rfl, refuses⟩)⟩
    · obtain ⟨values, rest, later⟩ := ih middle.length (progresses _ _ _ reads).2 middle rfl
      exact ⟨value :: values, rest, (many_eq_ok progresses).2 (.inr ⟨value, values, middle, rfl, reads, later⟩)⟩

theorem agreeBelow_many {size : Nat} {first second : Parser α} (proceeds : first.Proceeds)
    (agree : AgreeBelow size first second) : AgreeBelow size (many first) (many second) := by
  have within : ∀ bound, AgreeBelow size (manyWithin first bound) (manyWithin second bound) := by
    intro bound
    induction bound with
    | nil => exact agreeBelow_refl _ _
    | cons c bound ih =>
      intro text shorter
      change manyStep first (manyWithin first bound) text = manyStep second (manyWithin second bound) text
      rw [manyStep, manyStep, ← agree text shorter]
      rcases reads : first text with place | ⟨value, middle⟩
      · rfl
      · have below := Nat.lt_of_le_of_lt (proceeds _ _ _ reads).length_le shorter
        exact ih.bind_left _ middle below
  exact fun text shorter => within text text shorter

end Parser
end StyleScript
