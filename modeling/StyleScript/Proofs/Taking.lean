import StyleScript.Parser.Basic

/-! What a reading takes off the beginning of a text. A reading proceeds when it leaves an end of
its text, and it progresses when that end is shorter. Under these two the combinators are
relations between the part that is taken and the part that is left. -/

namespace StyleScript.Reading
variable {ε α β : Type}

/-- From a text that begins with `taken` and goes on with `rest`, exactly `taken` is read. -/
def Takes (reading : Reading ε α) (taken : Text) (value : α) (rest : Text) : Prop :=
  reading (taken ++ rest) = .ok (value, rest)

def Refuses (reading : Reading ε α) (text : Text) : Prop :=
  ∃ cause, reading text = .error cause

def Proceeds (reading : Reading ε α) : Prop :=
  ∀ text value rest, reading text = .ok (value, rest) → rest <:+ text

def Progresses (reading : Reading ε α) : Prop :=
  ∀ text value rest, reading text = .ok (value, rest) → rest <:+ text ∧ rest.length < text.length

@[grind ←]
theorem Progresses.proceeds {reading : Reading ε α} (progresses : reading.Progresses) : reading.Proceeds :=
  fun text value rest reads => (progresses text value rest reads).1

theorem Proceeds.takes {reading : Reading ε α} (proceeds : reading.Proceeds) {text rest : Text} {value : α}
    (reads : reading text = .ok (value, rest)) : ∃ taken, text = taken ++ rest ∧ reading.Takes taken value rest := by
  obtain ⟨taken, same⟩ := proceeds text value rest reads
  exact ⟨taken, same.symm, by rw [Takes, same]; exact reads⟩

theorem Progresses.takes_ne_nil {reading : Reading ε α} (progresses : reading.Progresses) {taken rest : Text}
    {value : α} (takes : reading.Takes taken value rest) : taken ≠ [] := by
  rintro rfl
  exact Nat.lt_irrefl _ (progresses _ _ _ takes).2

theorem not_refuses {reading : Reading ε α} {text rest : Text} {value : α}
    (reads : reading text = .ok (value, rest)) : ¬ reading.Refuses text := by
  intro found
  obtain ⟨cause, fails⟩ := found
  rw [reads] at fails
  cases fails

theorem refuses_or_reads (reading : Reading ε α) (text : Text) :
    reading.Refuses text ∨ ∃ value rest, reading text = .ok (value, rest) := by
  rcases result : reading text with cause | ⟨value, rest⟩
  · exact .inl ⟨cause, result⟩
  · exact .inr ⟨value, rest, rfl⟩

theorem eq_ok_of_toOption {result : Except ε α} {value : α} (same : result.toOption = some value) :
    result = .ok value := by
  cases result with
  | error cause => cases same
  | ok other =>
    cases same
    rfl

theorem ok_of_toOption_map {result : Except ε α} {kept : α → β} {value : β}
    (same : result.toOption.map kept = some value) : ∃ found, result = .ok found ∧ kept found = value := by
  cases result with
  | error cause => cases same
  | ok found =>
    cases same
    exact ⟨found, rfl, rfl⟩

theorem bind_of_reads {reading : Reading ε α} {text rest : Text} {value : α} (reads : reading text = .ok (value, rest))
    (next : α → Reading ε β) : (reading >>= next) text = next value rest := by
  change followedBy reading next text = _
  rw [followedBy, reads]

theorem bind_pure_eq_map (reading : Reading ε α) (build : α → β) (text : Text) :
    (reading >>= fun value => pure (build value)) text =
      (reading text).map fun result => (build result.1, result.2) := by
  change followedBy reading _ text = _
  rw [followedBy]
  cases reading text <;> rfl

@[grind ←]
theorem proceeds_pure (value : α) : (pure value : Reading ε α).Proceeds := by
  intro text result rest reads
  obtain ⟨-, rfl⟩ := pure_eq_ok.1 reads
  exact List.suffix_refl _

@[grind ←]
theorem Proceeds.bind {reading : Reading ε α} {next : α → Reading ε β} (first : reading.Proceeds)
    (second : ∀ value, (next value).Proceeds) : (reading >>= next).Proceeds := by
  intro text value rest reads
  obtain ⟨_, middle, reads, continues⟩ := bind_eq_ok.1 reads
  exact (second _ _ _ _ continues).trans (first _ _ _ reads)

@[grind ←]
theorem Progresses.bind {reading : Reading ε α} {next : α → Reading ε β} (first : reading.Progresses)
    (second : ∀ value, (next value).Proceeds) : (reading >>= next).Progresses := by
  intro text value rest reads
  obtain ⟨_, middle, reads, continues⟩ := bind_eq_ok.1 reads
  obtain ⟨inside, shorter⟩ := first _ _ _ reads
  have later := second _ _ _ _ continues
  exact ⟨later.trans inside, Nat.lt_of_le_of_lt later.length_le shorter⟩

theorem Proceeds.bind_progresses {reading : Reading ε α} {next : α → Reading ε β} (first : reading.Proceeds)
    (second : ∀ value, (next value).Progresses) : (reading >>= next).Progresses := by
  intro text value rest reads
  obtain ⟨_, middle, reads, continues⟩ := bind_eq_ok.1 reads
  have inside := first _ _ _ reads
  obtain ⟨later, shorter⟩ := second _ _ _ _ continues
  exact ⟨later.trans inside, Nat.lt_of_lt_of_le shorter inside.length_le⟩

@[simp]
theorem takes_pure {value result : α} {taken rest : Text} :
    (pure value : Reading ε α).Takes taken result rest ↔ taken = [] ∧ result = value := by
  rw [Takes, pure_eq_ok, and_comm]
  simp

theorem Takes.bind {reading : Reading ε α} {next : α → Reading ε β} {first second rest : Text} {value : α} {result : β}
    (reads : reading.Takes first value (second ++ rest)) (continues : (next value).Takes second result rest) :
    (reading >>= next).Takes (first ++ second) result rest := by
  rw [Takes, List.append_assoc]
  exact bind_eq_ok.2 ⟨_, _, reads, continues⟩

/-- A reading that comes last may take what is left of a part. -/
theorem takes_bind {reading : Reading ε α} {next : α → Reading ε β} {taken rest : Text} {result : β}
    (proceeds : reading.Proceeds) (later : ∀ value, (next value).Proceeds) :
    (reading >>= next).Takes taken result rest ↔
      ∃ value first second, taken = first ++ second ∧ reading.Takes first value (second ++ rest) ∧
        (next value).Takes second result rest := by
  constructor
  · intro reads
    obtain ⟨value, middle, reads, continues⟩ := bind_eq_ok.1 reads
    obtain ⟨second, rfl, takes⟩ := (later value).takes continues
    obtain ⟨first, same, before⟩ := proceeds.takes reads
    rw [← List.append_assoc] at same
    exact ⟨value, first, second, List.append_cancel_right same, before, takes⟩
  · intro found
    obtain ⟨value, first, second, rfl, reads, continues⟩ := found
    exact reads.bind continues

/-- Nothing more is taken for a value that is only built on. -/
theorem takes_bind_pure {reading : Reading ε α} {build : α → β} {taken rest : Text} {result : β} :
    (reading >>= fun value => pure (build value)).Takes taken result rest ↔
      ∃ value, reading.Takes taken value rest ∧ result = build value := by
  constructor
  · intro reads
    obtain ⟨value, middle, reads, ends⟩ := bind_eq_ok.1 reads
    obtain ⟨rfl, rfl⟩ := pure_eq_ok.1 ends
    exact ⟨value, reads, rfl⟩
  · intro found
    obtain ⟨value, reads, rfl⟩ := found
    exact bind_eq_ok.2 ⟨value, rest, reads, rfl⟩

theorem refuses_bind {reading : Reading ε α} {next : α → Reading ε β} {text : Text} :
    (reading >>= next).Refuses text ↔
      reading.Refuses text ∨ ∃ value middle, reading text = .ok (value, middle) ∧ (next value).Refuses middle := by
  simp only [Refuses, bind_eq_error]
  constructor
  · intro found
    obtain ⟨cause, fails | ⟨value, middle, reads, fails⟩⟩ := found
    · exact .inl ⟨cause, fails⟩
    · exact .inr ⟨value, middle, reads, cause, fails⟩
  · intro found
    obtain ⟨cause, fails⟩ | ⟨value, middle, reads, cause, fails⟩ := found
    · exact ⟨cause, .inl fails⟩
    · exact ⟨cause, .inr ⟨value, middle, reads, fails⟩⟩

theorem not_refuses_pure (value : α) (text : Text) : ¬ (pure value : Reading ε α).Refuses text :=
  not_refuses (show (pure value : Reading ε α) text = .ok (value, text) from rfl)

theorem refuses_bind_of_reads {reading : Reading ε α} {next : α → Reading ε β} {text rest : Text} {value : α}
    (reads : reading text = .ok (value, rest)) : (reading >>= next).Refuses text ↔ (next value).Refuses rest := by
  constructor
  · intro refuses
    obtain refuses | ⟨other, middle, again, refuses⟩ := refuses_bind.1 refuses
    · exact absurd refuses (not_refuses reads)
    · rw [reads] at again
      cases again
      exact refuses
  · exact fun refuses => refuses_bind.2 (.inr ⟨value, rest, reads, refuses⟩)

theorem refuses_bind_pure {reading : Reading ε α} {build : α → β} {text : Text} :
    (reading >>= fun value => pure (build value)).Refuses text ↔ reading.Refuses text := by
  rw [refuses_bind]
  apply or_iff_left
  intro found
  obtain ⟨value, middle, _, impossible⟩ := found
  exact not_refuses_pure _ _ impossible

end Reading

namespace Parser
open Reading
variable {α : Type}

theorem proceeds_fail : (fail : Parser α).Proceeds := by
  intro text value rest reads
  cases reads

theorem takes_orElse {first second : Parser α} {taken rest : Text} {value : α} :
    (first <|> second).Takes taken value rest ↔
      first.Takes taken value rest ∨ first.Refuses (taken ++ rest) ∧ second.Takes taken value rest :=
  orElse_eq_ok

theorem refuses_orElse {first second : Parser α} {text : Text} :
    (first <|> second).Refuses text ↔ first.Refuses text ∧ second.Refuses text := by
  simp only [Refuses, orElse_eq_error]
  constructor
  · intro found
    obtain ⟨place, passed, fails⟩ := found
    exact ⟨passed, place, fails⟩
  · intro found
    obtain ⟨passed, place, fails⟩ := found
    exact ⟨place, passed, fails⟩

theorem proceeds_orElse {first second : Parser α} (one : first.Proceeds) (other : second.Proceeds) :
    (first <|> second).Proceeds := by
  intro text value rest reads
  rcases orElse_eq_ok.1 reads with reads | ⟨-, reads⟩
  · exact one _ _ _ reads
  · exact other _ _ _ reads

theorem progresses_orElse {first second : Parser α} (one : first.Progresses) (other : second.Progresses) :
    (first <|> second).Progresses := by
  intro text value rest reads
  rcases orElse_eq_ok.1 reads with reads | ⟨-, reads⟩
  · exact one _ _ _ reads
  · exact other _ _ _ reads

theorem optional_eq_ok {parser : Parser α} {text rest : Text} {value : Option α} :
    optional parser text = .ok (value, rest) ↔
      (∃ result, value = some result ∧ parser text = .ok (result, rest)) ∨
        value = none ∧ rest = text ∧ parser.Refuses text := by
  rw [optional]
  rcases result : parser text with place | ⟨result, left⟩
  · simp [Refuses, result, eq_comm]
  · simp only [Refuses, result, Except.ok.injEq, Prod.mk.injEq]
    constructor
    · intro found
      obtain ⟨rfl, rfl⟩ := found
      exact .inl ⟨_, rfl, rfl, rfl⟩
    · intro found
      obtain ⟨_, rfl, rfl, rfl⟩ | ⟨-, -, _, ⟨⟩⟩ := found
      exact ⟨rfl, rfl⟩

theorem takes_optional {parser : Parser α} {taken rest : Text} {value : Option α} :
    (optional parser).Takes taken value rest ↔
      (∃ result, value = some result ∧ parser.Takes taken result rest) ∨
        value = none ∧ taken = [] ∧ parser.Refuses rest := by
  rw [Takes, optional_eq_ok, List.self_eq_append_left]
  have nothing : taken = [] ∧ parser.Refuses (taken ++ rest) ↔ taken = [] ∧ parser.Refuses rest :=
    and_congr_right fun empty => by rw [empty, List.nil_append]
  exact or_congr_right (and_congr_right fun _ => nothing)

@[grind ←]
theorem proceeds_optional {parser : Parser α} (proceeds : parser.Proceeds) : (optional parser).Proceeds := by
  intro text value rest reads
  obtain ⟨_, -, reads⟩ | ⟨-, rfl, -⟩ := optional_eq_ok.1 reads
  · exact proceeds _ _ _ reads
  · exact List.suffix_refl _

theorem span_eq_ok {parser : Parser α} {text value rest : Text} :
    span parser text = .ok (value, rest) ↔
      value = Text.before text rest ∧ ∃ result, parser text = .ok (result, rest) := by
  rw [span]
  rcases parser text with place | ⟨result, left⟩
  · simp
  · simp only [Except.ok.injEq, Prod.mk.injEq]
    constructor
    · intro found
      obtain ⟨rfl, rfl⟩ := found
      exact ⟨rfl, result, rfl, rfl⟩
    · intro found
      obtain ⟨rfl, _, -, rfl⟩ := found
      exact ⟨rfl, rfl⟩

theorem takes_span {parser : Parser α} {taken value rest : Text} :
    (span parser).Takes taken value rest ↔ value = taken ∧ ∃ result, parser.Takes taken result rest := by
  rw [Takes, span_eq_ok, Text.before_append]
  rfl

@[grind ←]
theorem proceeds_span {parser : Parser α} (proceeds : parser.Proceeds) : (span parser).Proceeds := by
  intro text value rest reads
  obtain ⟨-, _, reads⟩ := span_eq_ok.1 reads
  exact proceeds _ _ _ reads

theorem progresses_span {parser : Parser α} (progresses : parser.Progresses) : (span parser).Progresses := by
  intro text value rest reads
  obtain ⟨-, _, reads⟩ := span_eq_ok.1 reads
  exact progresses _ _ _ reads

theorem refuses_span {parser : Parser α} {text : Text} : (span parser).Refuses text ↔ parser.Refuses text := by
  rw [Refuses, Refuses, span]
  rcases parser text with place | ⟨result, left⟩ <;> simp

end Parser
end StyleScript
