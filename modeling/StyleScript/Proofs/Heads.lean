import StyleScript.Proofs.Endings
import StyleScript.Proofs.Excerpts

/-! What the head of a function is made of, wherever it is accepted: the word, the name, and the list of parameters
up to the last closing parenthesis, with blanks between them; and which texts are read as parameters together. -/

namespace StyleScript.Header
open Reading StyleScript.Parser Text

theorem of_listText {text list rest : Text} (reads : listText text = .ok (list, rest)) :
    text = '(' :: (list ++ ')' :: rest) := by
  obtain ⟨_, inside, opening, reads⟩ := bind_eq_ok.1 reads
  obtain ⟨whites, whole, -⟩ := exists_trimEnd inside
  dsimp only at reads
  split at reads
  next last =>
    cases reads
    have ends : trimEnd inside = (trimEnd inside).dropLast ++ [')'] := by
      obtain ⟨shorter, same⟩ := List.getLast?_eq_some_iff.1 last
      rw [same, List.dropLast_concat]
    have left : inside.drop (trimEnd inside).length = whites :=
      (congrArg (List.drop _) whole).trans List.drop_left
    rw [char_eq_ok.1 opening, left]
    conv_lhs => rw [whole, ends, List.append_assoc]
    rfl
  next => cases reads

theorem listText_of_white (list : Text) {closing : Text} (white : ∀ c ∈ closing, isWhite c = true) :
    listText ('(' :: (list ++ ')' :: closing)) = .ok (list, closing) := by
  have trimmed : trimEnd (list ++ ')' :: closing) = list ++ [')'] := by
    rw [List.append_cons, trimEnd_append_whites _ white, trimEnd_of_visible (.mark list (by decide))]
  have left : (list ++ ')' :: closing).drop (list ++ [')']).length = closing := by
    rw [List.append_cons list ')' closing]
    exact List.drop_left
  refine bind_eq_ok.2 ⟨(), list ++ ')' :: closing, rfl, ?_⟩
  simp only [trimmed, left, List.getLast?_concat, List.dropLast_concat, if_pos]

/-- The text of a head: the word, a gap, the name as it is spelled, and perhaps a list in parentheses. Around them
stand only blanks, so the parenthesis that closes the list is the last one of the text. -/
def Spells (text name : Text) (list : Option Text) : Prop :=
  ∃ front gap spaces back, text = front ++ ("@function".toList ++ (gap ++ (name ++ (spaces ++ back)))) ∧
    (∀ c ∈ front ++ (gap ++ spaces), isBlank c = true) ∧ gap ≠ [] ∧ name ≠ [] ∧
    (∀ c ∈ name, Name.continues c = true) ∧
    (list = none ∧ back = [] ∨
      ∃ inside closing, list = some inside ∧ back = '(' :: (inside ++ ')' :: closing) ∧
        ∀ c ∈ closing, isBlank c = true)

namespace Spells
variable {text name : Text} {list : Option Text} (spells : Spells text name list)
include spells

theorem name_ne_nil : name ≠ [] := by
  obtain ⟨_, _, _, _, -, -, -, nonempty, -⟩ := spells
  exact nonempty

theorem continues : ∀ c ∈ name, Name.continues c = true := by
  obtain ⟨_, _, _, _, -, -, -, -, continues, -⟩ := spells
  exact continues

end Spells

theorem spells_of_signature {text name rest : Text} {list : Option Text}
    (reads : signature text = .ok ((name, list), rest)) : Spells text name list ∧ rest = [] := by
  obtain ⟨_, _, first, reads⟩ := bind_eq_ok.1 reads
  obtain ⟨_, _, word, reads⟩ := bind_eq_ok.1 reads
  obtain ⟨_, _, between, reads⟩ := bind_eq_ok.1 reads
  obtain ⟨_, _, named, reads⟩ := bind_eq_ok.1 reads
  obtain ⟨_, _, second, reads⟩ := bind_eq_ok.1 reads
  obtain ⟨_, behind, parens, reads⟩ := bind_eq_ok.1 reads
  obtain ⟨_, left, third, reads⟩ := bind_eq_ok.1 reads
  obtain ⟨_, _, ends, reads⟩ := bind_eq_ok.1 reads
  obtain ⟨same, rfl⟩ := pure_eq_ok.1 reads
  cases same
  obtain ⟨front, rfl, takesFront⟩ := proceeds_blanks.takes first
  obtain ⟨gap, rfl, takesGap⟩ := progresses_blanks1.proceeds.takes between
  obtain ⟨_, rfl, takesName⟩ := (progresses_takeWhile1 _).proceeds.takes named
  obtain ⟨rfl, nonempty, continues, -⟩ := takes_takeWhile1.1 takesName
  obtain ⟨spaces, rfl, takesSpaces⟩ := proceeds_blanks.takes second
  obtain ⟨closing, rfl, takesClosing⟩ := proceeds_blanks.takes third
  rw [atEnd] at ends
  split at ends
  next empty =>
    cases ends
    rw [empty, List.append_nil] at parens
    refine ⟨⟨front, gap, spaces, _, by rw [exactly_eq_ok.1 word], ?_, (takes_blanks1.1 takesGap).1, nonempty, continues,
      ?_⟩, empty⟩
    · simp only [List.mem_append]
      rintro c (member | member | member)
      · exact (takes_blanks.1 takesFront).1 c member
      · exact (takes_blanks1.1 takesGap).2.1 c member
      · exact (takes_blanks.1 takesSpaces).1 c member
    · have blank : ∀ c ∈ closing, isBlank c = true := (takes_blanks.1 takesClosing).1
      obtain ⟨list, rfl, inner⟩ | ⟨rfl, rfl, -⟩ := optional_eq_ok.1 parens
      · exact .inr ⟨list, closing, rfl, of_listText inner, blank⟩
      · -- Without a list the blanks after the name were taken before.
        cases closing with
        | nil => exact .inl ⟨rfl, rfl⟩
        | cons c closing =>
          have visible := stops_cons.1 (takes_blanks.1 takesSpaces).2
          rw [blank c List.mem_cons_self] at visible
          cases visible
  next => cases ends

theorem signature_of_spells {text name : Text} {list : Option Text} (spells : Spells text name list) :
    signature text = .ok ((name, list), []) := by
  obtain ⟨front, gap, spaces, back, rfl, blank, opened, nonempty, continues, ends⟩ := spells
  obtain ⟨blankFront, blankOthers⟩ := List.forall_mem_append.1 blank
  obtain ⟨blankGap, blankSpaces⟩ := List.forall_mem_append.1 blankOthers
  obtain ⟨stopsName, stopsBlank⟩ : Stops Name.continues back ∧ Stops isBlank back := by
    obtain ⟨-, rfl⟩ | ⟨_, _, -, rfl, -⟩ := ends
    · exact ⟨stops_nil _, stops_nil _⟩
    · exact ⟨stops_cons.2 (by decide), stops_cons.2 (by decide)⟩
  have first : blanks.Takes front () ("@function".toList ++ (gap ++ (name ++ (spaces ++ back)))) :=
    takes_blanks.2 ⟨blankFront, stops_cons.2 (by decide)⟩
  have between : blanks1.Takes gap () (name ++ (spaces ++ back)) := by
    refine takes_blanks1.2 ⟨opened, blankGap, ?_⟩
    obtain ⟨c, others, same⟩ := List.exists_cons_of_ne_nil nonempty
    have visible : isWhite c = false := isWhite_of_continues (continues c (same ▸ List.mem_cons_self))
    rw [same]
    exact Stops.mono (stops_cons.2 visible) fun _ => isWhite_of_isBlank
  have named : (takeWhile1 Name.continues).Takes name name (spaces ++ back) := by
    refine takes_takeWhile1.2 ⟨rfl, nonempty, continues, ?_⟩
    cases spaces with
    | nil => exact stopsName
    | cons c spaces =>
      refine stops_cons.2 (Bool.eq_false_iff.2 fun letter => ?_)
      have visible := isWhite_of_continues letter
      rw [isWhite_of_isBlank (blankSpaces c List.mem_cons_self)] at visible
      cases visible
  have second : blanks.Takes spaces () back := takes_blanks.2 ⟨blankSpaces, stopsBlank⟩
  obtain ⟨closing, parens, blankClosing⟩ : ∃ closing, optional listText back = .ok (list, closing) ∧
      ∀ c ∈ closing, isBlank c = true := by
    obtain ⟨rfl, rfl⟩ | ⟨inside, closing, rfl, rfl, blankClosing⟩ := ends
    · exact ⟨[], rfl, List.forall_mem_nil _⟩
    · have white : ∀ c ∈ closing, isWhite c = true := fun c member => isWhite_of_isBlank (blankClosing c member)
      exact ⟨closing, optional_eq_ok.2 (.inl ⟨inside, rfl, listText_of_white inside white⟩), blankClosing⟩
  have third : blanks closing = .ok ((), []) := by
    have takes : blanks.Takes closing () [] := takes_blanks.2 ⟨blankClosing, stops_nil _⟩
    rwa [Takes, List.append_nil] at takes
  refine bind_eq_ok.2 ⟨(), _, first, bind_eq_ok.2 ⟨(), _, exactly_eq_ok.2 rfl, bind_eq_ok.2 ⟨(), _, between, ?_⟩⟩⟩
  refine bind_eq_ok.2 ⟨name, _, named, bind_eq_ok.2 ⟨(), _, second, bind_eq_ok.2 ⟨list, _, parens, ?_⟩⟩⟩
  exact bind_eq_ok.2 ⟨(), [], third, rfl⟩

/-- The texts that are read as heads are those that are spelled as such, and nothing is left of them. -/
theorem signature_eq_ok {text name rest : Text} {list : Option Text} :
    signature text = .ok ((name, list), rest) ↔ Spells text name list ∧ rest = [] :=
  ⟨spells_of_signature, fun ⟨spells, empty⟩ => empty ▸ signature_of_spells spells⟩

section
variable {dialect : Dialect} {texts : List Text} {parameters : List Parameter}
  (reads : List.Forall₂ (fun text parameter => Parameter.ofText? dialect text = some parameter) texts parameters)
  (apart : (parameters.map (Name.variableKey ·.name)).Nodup)
include reads apart

/-- Parameters with fresh keys are passed over, and their keys are seen then, the last one first. -/
theorem readParameters_append (excerpt : Excerpt) (function : Text) {seen : List Text}
    (fresh : ∀ parameter ∈ parameters, Name.variableKey parameter.name ∉ seen) (rest : List Text) :
    readParameters dialect excerpt function seen (texts ++ rest) =
      (readParameters dialect excerpt function ((parameters.map (Name.variableKey ·.name)).reverse ++ seen) rest).map
        (parameters ++ ·) := by
  induction reads generalizing seen with
  | nil =>
    change _ = Except.map id (readParameters dialect excerpt function seen rest)
    rw [Except.map_id]
    rfl
  | @cons text parameter texts parameters read _ ih =>
    obtain ⟨new, others⟩ := List.forall_mem_cons.1 fresh
    obtain ⟨once, distinct⟩ := List.nodup_cons.1 apart
    have still : ∀ other ∈ parameters, Name.variableKey other.name ∉ Name.variableKey parameter.name :: seen := by
      intro other member
      refine List.not_mem_cons_of_ne_of_not_mem (fun same => once ?_) (others other member)
      exact List.mem_map.2 ⟨other, member, same⟩
    rw [List.cons_append, readParameters, read]
    dsimp only
    rw [if_neg new, ih distinct still, List.map_cons, List.reverse_cons, List.append_assoc, List.singleton_append]
    generalize readParameters dialect excerpt function _ rest = result
    cases result <;> rfl

end

/-- The parameters that are read are those of the texts one by one, with keys that differ from each other and from those
that were seen. -/
theorem readParameters_eq_ok {dialect : Dialect} {excerpt : Excerpt} {function : Text} {seen texts : List Text}
    {parameters : List Parameter} :
    readParameters dialect excerpt function seen texts = .ok parameters ↔
      List.Forall₂ (fun text parameter => Parameter.ofText? dialect text = some parameter) texts parameters ∧
        (parameters.map (Name.variableKey ·.name)).Nodup ∧
        ∀ parameter ∈ parameters, Name.variableKey parameter.name ∉ seen := by
  constructor
  · intro read
    induction texts generalizing seen parameters with
    | nil =>
      cases read
      exact ⟨.nil, List.nodup_nil, List.forall_mem_nil _⟩
    | cons text texts ih =>
      rw [readParameters] at read
      rcases result : Parameter.ofText? dialect text with - | parameter
      · rw [result] at read
        cases read
      · simp only [result] at read
        split at read
        · cases read
        next fresh =>
          rcases inner : readParameters dialect excerpt function (Name.variableKey parameter.name :: seen) texts with
            fault | others <;> rw [inner] at read <;> cases read
          obtain ⟨reads, distinct, apart⟩ := ih inner
          refine ⟨.cons result reads, List.nodup_cons.2 ⟨fun again => ?_, distinct⟩,
            List.forall_mem_cons.2 ⟨fresh, fun other member known => ?_⟩⟩
          · obtain ⟨other, member, same⟩ := List.mem_map.1 again
            exact apart other member (same ▸ List.mem_cons_self)
          · exact apart other member (List.mem_cons_of_mem _ known)
  · rintro ⟨reads, apart, fresh⟩
    have all := readParameters_append reads apart excerpt function fresh []
    rw [List.append_nil] at all
    rw [all, readParameters, Except.map, List.append_nil]

/-- Whether parameters are read, and which, does not depend on the place of the head. -/
theorem ofExcerpt_site {dialect : Dialect} {name source : Text} {parameters : List Parameter} {site : Site}
    (read : ofExcerpt dialect ⟨source, site⟩ = .ok ⟨name, parameters, ⟨source, site⟩⟩) (other : Site) :
    ofExcerpt dialect ⟨source, other⟩ = .ok ⟨name, parameters, ⟨source, other⟩⟩ := by
  obtain ⟨written, list, rest, _, reads, inner, same⟩ := ofExcerpt_eq_ok.1 read
  cases same
  exact ofExcerpt_eq_ok.2 ⟨written, list, rest, _, reads, readParameters_eq_ok.2 (readParameters_eq_ok.1 inner), rfl⟩

end StyleScript.Header
