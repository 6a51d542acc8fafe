import StyleScript.Text

/-! A reading takes a beginning off a text or fails with a cause. A parser is a reading whose
cause is the place where it gave up, that is the text from there on, so that a message can quote
it. Optional and repeated parts do not fail: they give back what they had taken. -/

namespace StyleScript

def Reading (ε α : Type) := Text → Except ε (α × Text)

namespace Reading
variable {ε α β : Type}

/-- What comes next reads on from where the first reading stopped. -/
def followedBy (reading : Reading ε α) (next : α → Reading ε β) : Reading ε β := fun text =>
  match reading text with
  | .error cause => .error cause
  | .ok (value, rest) => next value rest

instance : Monad (Reading ε) where
  pure value := fun text => .ok (value, text)
  bind := followedBy

instance : LawfulMonad (Reading ε) := LawfulMonad.mk' _
  (by
    intro α reading
    funext text
    change followedBy reading pure text = reading text
    rw [followedBy]
    cases reading text <;> rfl)
  (fun _ _ => rfl)
  (by
    intro α β γ reading next last
    funext text
    change followedBy (followedBy reading next) last text =
      followedBy reading (fun value => followedBy (next value) last) text
    simp only [followedBy]
    cases reading text <;> rfl)

/-- The text that is still to be read. -/
def remaining : Reading ε Text := fun text => .ok (text, text)

def ofExcept (result : Except ε α) : Reading ε α := fun text => result.map fun value => (value, text)

theorem pure_eq_ok {value result : α} {text rest : Text} :
    (pure value : Reading ε α) text = .ok (result, rest) ↔ result = value ∧ rest = text := by
  constructor
  · rintro ⟨⟩
    exact ⟨rfl, rfl⟩
  · rintro ⟨rfl, rfl⟩
    rfl

theorem bind_eq_ok {reading : Reading ε α} {next : α → Reading ε β} {text rest : Text} {value : β} :
    (reading >>= next) text = .ok (value, rest) ↔
      ∃ first middle, reading text = .ok (first, middle) ∧ next first middle = .ok (value, rest) := by
  change followedBy reading next text = _ ↔ _
  rw [followedBy]
  rcases reading text with cause | ⟨first, middle⟩
  · simp
  · constructor
    · exact fun reads => ⟨first, middle, rfl, reads⟩
    · rintro ⟨_, _, ⟨⟩, reads⟩
      exact reads

theorem bind_eq_error {reading : Reading ε α} {next : α → Reading ε β} {text : Text} {cause : ε} :
    (reading >>= next) text = .error cause ↔
      reading text = .error cause ∨
        ∃ first middle, reading text = .ok (first, middle) ∧ next first middle = .error cause := by
  change followedBy reading next text = _ ↔ _
  rw [followedBy]
  rcases reading text with failed | ⟨first, middle⟩
  · simp
  · constructor
    · exact fun fails => .inr ⟨first, middle, rfl, fails⟩
    · rintro (⟨⟨⟩⟩ | ⟨_, _, ⟨⟩, fails⟩)
      exact fails

end Reading

abbrev Parser := Reading Text

namespace Parser
variable {α : Type}

def fail : Parser α := fun text => .error text

/-- When both alternatives fail, it is the later one that says where. -/
def either (first second : Parser α) : Parser α := fun text =>
  match first text with
  | .ok result => .ok result
  | .error _ => second text

instance : OrElse (Parser α) := ⟨fun first second => either first (second ())⟩

def optional (parser : Parser α) : Parser (Option α) := fun text =>
  match parser text with
  | .ok (value, rest) => .ok (some value, rest)
  | .error _ => .ok (none, text)

/-- Items one after another, at most as many as `bound` has characters. -/
def manyWithin (parser : Parser α) : Text → Parser (List α)
  | [] => pure []
  | _ :: bound => fun text =>
    match parser text with
    | .error _ => .ok ([], text)
    | .ok (value, rest) => (do return value :: (← manyWithin parser bound)) rest

/-- As many items as there are: where each takes a character, the text itself is bound enough. -/
def many (parser : Parser α) : Parser (List α) := fun text => manyWithin parser text text

/-- The text that a parser takes, in place of what it makes of it. -/
def span (parser : Parser α) : Parser Text := fun text =>
  match parser text with
  | .error place => .error place
  | .ok (_, rest) => .ok (Text.before text rest, rest)

def atEnd : Parser Unit := fun text => if text = [] then .ok ((), text) else .error text

theorem orElse_eq_error {first second : Parser α} {text place : Text} :
    (first <|> second) text = .error place ↔
      (∃ passed, first text = .error passed) ∧ second text = .error place := by
  change either first second text = _ ↔ _
  rw [either]
  cases first text <;> simp

theorem orElse_eq_ok {first second : Parser α} {text : Text} {result : α × Text} :
    (first <|> second) text = .ok result ↔
      first text = .ok result ∨ (∃ passed, first text = .error passed) ∧ second text = .ok result := by
  change either first second text = _ ↔ _
  rw [either]
  cases first text <;> simp

end Parser
end StyleScript
