import StyleScript.Proofs.Declarations
import StyleScript.Proofs.HeadClosing
import Mathlib.Data.List.Induction

/-! Which texts are heads of functions, said without the parser: how a head is spelled, where its list is cut, and what
each part declares. Every other text is refused for the first thing in it that is wrong. -/

namespace StyleScript
open Nesting

namespace Name

/-- Dashes become underscores, and capital letters become small. -/
def lowered (name : Text) : Text := name.map fun c => if c = '-' then '_' else c.toLower

theorem toNat_lt_of_continues {c : Char} (letter : continues c = true) : c.toNat < 128 := by
  simp only [continues, Char.isAlphanum, Bool.or_eq_true, beq_iff_eq] at letter
  obtain ((alpha | digit) | rfl) | rfl := letter
  · have bounds := Text.bounds_of_isAlpha alpha
    omega
  · have bounds := Char.isDigit_iff_toNat.1 digit
    have last : '9'.toNat = 57 := rfl
    omega
  · decide
  · decide

theorem functionKey_of_continues {name : Text} (letters : ∀ c ∈ name, continues c = true) :
    functionKey name = lowered name := by
  have each : ∀ code < 128, continues (Char.ofNat code) = true →
      functionKey [Char.ofNat code] = lowered [Char.ofNat code] := by decide +kernel
  refine List.map_congr_left fun c member => ?_
  have same := each c.toNat (toNat_lt_of_continues (letters c member))
  rw [Char.ofNat_toNat] at same
  exact List.head_eq_of_cons_eq (same (letters c member))

theorem letters_of_functionKey (name : Text) :
    ∀ c ∈ functionKey name, c.isLower = true ∨ c.isDigit = true ∨ c = '_' := by
  intro c member
  obtain ⟨spelled, -, rfl⟩ := List.mem_map.1 member
  dsimp only
  split
  next letter => exact (Bool.or_eq_true_iff.1 letter).imp_right .inl
  next => exact .inr (.inr rfl)

end Name

/-- A text up to one of the commas that join the parts. -/
def Between (parts : List Text) (front : Text) : Prop :=
  ∃ left right, parts = left ++ right ∧ left ≠ [] ∧ right ≠ [] ∧ [','].intercalate left = front

/-- A text cut at its commas: at those that a scan from the left meets outside quotes and parentheses, and at no
others. -/
structure IsCut (text : Text) (parts : List Text) : Prop where
  nonempty : parts ≠ []
  joined : [','].intercalate parts = text
  places : ∀ front back, text = front ++ ',' :: back → (outside.scan front = outside ↔ Between parts front)

theorem not_between_singleton {part front : Text} : ¬ Between [part] front := by
  rintro ⟨left, right, parts, some, others, -⟩
  have lengths := congrArg List.length parts
  have one := List.length_pos_iff.2 some
  have other := List.length_pos_iff.2 others
  simp only [List.length_singleton, List.length_append] at lengths
  omega

theorem between_cons {part front : Text} {parts : List Text} (nonempty : parts ≠ []) :
    Between (part :: parts) front ↔ front = part ∨ ∃ later, front = part ++ ',' :: later ∧ Between parts later := by
  constructor
  · rintro ⟨_ | ⟨first, left⟩, right, same, some, others, rfl⟩
    · exact absurd rfl some
    · obtain ⟨rfl, rfl⟩ := List.cons.inj same
      by_cases alone : left = []
      · exact .inl (by rw [alone, List.intercalate_singleton])
      · exact .inr ⟨_, intercalate_comma alone part, left, right, rfl, alone, others, rfl⟩
  · rintro (rfl | ⟨_, rfl, left, right, rfl, some, others, rfl⟩)
    · exact ⟨[front], parts, rfl, List.cons_ne_nil _ _, nonempty, List.intercalate_singleton⟩
    · exact ⟨part :: left, right, rfl, List.cons_ne_nil _ _, others, intercalate_comma some part⟩

theorem isCut_singleton {text part : Text} : IsCut text [part] ↔ part = text ∧ outside.Whole text := by
  constructor
  · intro cut
    refine ⟨List.intercalate_singleton.symm.trans cut.joined, fun front back same met => ?_⟩
    exact not_between_singleton ((cut.places front back same).1 met)
  · rintro ⟨rfl, whole⟩
    refine ⟨List.cons_ne_nil _ _, List.intercalate_singleton, fun front back same => ?_⟩
    exact iff_of_false (whole front back same) not_between_singleton

/-- Behind a cut the scan starts anew. -/
theorem scan_behind {part : Text} (closed : outside.scan part = outside) (text : Text) :
    outside.scan (part ++ ',' :: text) = outside.scan text := by
  rw [scan_append, closed]
  rfl

theorem isCut_cons {text part : Text} {parts : List Text} (nonempty : parts ≠ []) :
    IsCut text (part :: parts) ↔
      ∃ rest, text = part ++ ',' :: rest ∧ outside.Whole part ∧ outside.scan part = outside ∧ IsCut rest parts := by
  constructor
  · intro cut
    have joined : text = part ++ ',' :: [','].intercalate parts := (intercalate_comma nonempty part ▸ cut.joined).symm
    have closed : outside.scan part = outside := (cut.places part _ joined).2 ((between_cons nonempty).2 (.inl rfl))
    refine ⟨_, joined, fun front back same met => ?_, closed, nonempty, rfl, fun front back same => ?_⟩
    · -- No cut comes before the end of the first part.
      have between := (cut.places front (back ++ ',' :: [','].intercalate parts) (by rw [joined, same]; simp)).1 met
      have shorter := congrArg List.length same
      simp only [List.length_append, List.length_cons] at shorter
      obtain rfl | ⟨later, rfl, -⟩ := (between_cons nonempty).1 between
      · omega
      · simp only [List.length_append, List.length_cons] at shorter
        omega
    · have place := cut.places (part ++ ',' :: front) back (by rw [joined, same]; simp)
      rw [scan_behind closed, between_cons nonempty] at place
      refine place.trans ⟨?_, fun between => .inr ⟨front, rfl, between⟩⟩
      rintro (impossible | ⟨later, equal, between⟩)
      · simp at impossible
      · obtain rfl : front = later := by simpa using equal
        exact between
  · rintro ⟨rest, rfl, whole, closed, cut⟩
    refine ⟨List.cons_ne_nil _ _, by rw [intercalate_comma nonempty, cut.joined], fun front back same => ?_⟩
    rw [between_cons nonempty]
    obtain ⟨middle, rfl, tail⟩ | ⟨middle, rfl, tail⟩ := List.append_eq_append_iff.1 same
    · cases middle with
      | nil =>
        rw [List.append_nil]
        exact iff_of_true closed (.inl rfl)
      | cons comma middle =>
        obtain ⟨rfl, behind⟩ := List.cons.inj tail
        rw [scan_behind closed, cut.places middle back behind]
        simp
    · cases middle with
      | nil =>
        rw [List.append_nil] at closed
        exact iff_of_true closed (.inl (by simp))
      | cons comma middle =>
        obtain ⟨rfl, -⟩ := List.cons.inj tail
        refine iff_of_false (whole front middle rfl) ?_
        simp

theorem isCut_commaParts (text : Text) : IsCut text (commaParts text) := by
  refine commaParts_induction (fun text whole => isCut_singleton.2 ⟨rfl, whole⟩) ?_ text
  exact fun part rest whole closed cut => (isCut_cons cut.nonempty).2 ⟨rest, rfl, whole, closed, cut⟩

theorem isCut_iff {text : Text} {parts : List Text} : IsCut text parts ↔ parts = commaParts text := by
  refine ⟨fun cut => ?_, fun same => same ▸ isCut_commaParts text⟩
  induction parts generalizing text with
  | nil => exact absurd rfl cut.nonempty
  | cons part parts ih =>
    cases parts with
    | nil =>
      obtain ⟨rfl, whole⟩ := isCut_singleton.1 cut
      exact (commaParts_of_whole whole).symm
    | cons next others =>
      obtain ⟨rest, rfl, whole, closed, later⟩ := (isCut_cons (List.cons_ne_nil _ _)).1 cut
      rw [commaParts_of_cut whole closed, ← ih later]

theorem Text.trim_trim (text : Text) : trim (trim text) = trim text := by
  rw [trim, trimStart_of_stops (stops_trim text)]
  exact trimEnd_trimEnd _

namespace Parameter
open WrittenParameter

theorem ofText?_of_declares {dialect : Dialect} {text : Text} {parameter : Parameter}
    (declares : Declares dialect (Text.trim text) parameter) : ofText? dialect text = some parameter := by
  obtain ⟨name, default⟩ := parameter
  obtain ⟨identifier, parts⟩ := declares
  have proper {gap : Text} (white : ∀ c ∈ gap, Text.isWhite c = true) : WrittenParameter.Proper ⟨[], name, gap, none⟩ :=
    ⟨List.forall_mem_nil _, identifier, white, by simp⟩
  obtain ⟨rfl, bare⟩ | ⟨gap, text', defaulted, white, rfl, visible⟩ := parts
  · have proper := proper (List.forall_mem_nil _)
    have trimmed : Text.trim text = target dialect ⟨[], name, [], none⟩ ++ given dialect none := by
      rw [bare, target, List.append_nil]
      exact (List.append_nil _).symm
    exact ofText?_of_trim trimmed (ne_separator proper) (trimEnd_target proper) identifier (by simp)
  · have proper := proper white
    have trimmed : Text.trim text = target dialect ⟨[], name, gap, none⟩ ++ given dialect (some text') := by
      rw [defaulted]
      exact (List.append_assoc (dialect.sigil :: name) gap (dialect.separator :: text')).symm
    refine ofText?_of_trim trimmed (ne_separator proper) (trimEnd_target proper) identifier ?_
    rintro _ ⟨⟩
    exact visible

theorem ofText?_eq_some {dialect : Dialect} {text : Text} {parameter : Parameter} :
    ofText? dialect text = some parameter ↔ Declares dialect (Text.trim text) parameter :=
  ⟨declares_of_ofText?, ofText?_of_declares⟩

theorem Declares.default_visible {dialect : Dialect} {text default : Text} {parameter : Parameter}
    (declares : Declares dialect text parameter) (given : default ∈ parameter.default) :
    default ≠ [] ∧ Text.trim default = default := by
  obtain ⟨-, ⟨absent, -⟩ | ⟨_, _, -, -, present, visible⟩⟩ := declares
  · rw [absent] at given
    cases given
  · rw [present] at given
    cases given
    exact ⟨visible, Text.trim_trim _⟩

end Parameter

namespace Header
open StyleScript.Parser

/-- The parts of the list of a head: a head without a list and a blank list have none. -/
def HasParts : Option Text → List Text → Prop
  | none, parts => parts = []
  | some list, parts => if Text.trim list = [] then parts = [] else IsCut list parts

theorem hasParts_iff {list : Option Text} {parts : List Text} : HasParts list parts ↔ parts = parameterTexts list := by
  cases list with
  | none => rfl
  | some list =>
    rw [HasParts, parameterTexts]
    split
    · rfl
    · exact isCut_iff

/-- Each part declares the parameter in its place, and the keys of the parameters differ. -/
structure AreDeclared (dialect : Dialect) (parts : List Text) (parameters : List Parameter) : Prop where
  each : List.Forall₂ (fun part parameter => Parameter.Declares dialect (Text.trim part) parameter) parts parameters
  apart : (parameters.map (Name.variableKey ·.name)).Nodup

namespace AreDeclared
variable {dialect : Dialect} {parts : List Text} {parameters : List Parameter}
  (declared : AreDeclared dialect parts parameters)
include declared

theorem reads : List.Forall₂ (fun part parameter => Parameter.ofText? dialect part = some parameter) parts parameters :=
  declared.each.imp fun _ _ => Parameter.ofText?_eq_some.2

theorem exists_part {parameter : Parameter} (member : parameter ∈ parameters) :
    ∃ part ∈ parts, Parameter.Declares dialect (Text.trim part) parameter := by
  obtain ⟨each, -⟩ := declared
  induction each with
  | nil => cases member
  | cons declares _ ih =>
    obtain rfl | member := List.mem_cons.1 member
    · exact ⟨_, List.mem_cons_self, declares⟩
    · obtain ⟨part, inside, declares⟩ := ih member
      exact ⟨part, List.mem_cons_of_mem _ inside, declares⟩

theorem concat {part : Text} {parameter : Parameter} (declares : parameter.Declares dialect (Text.trim part))
    (fresh : Name.variableKey parameter.name ∉ parameters.map (Name.variableKey ·.name)) :
    AreDeclared dialect (parts ++ [part]) (parameters ++ [parameter]) where
  each := List.rel_append declared.each (.cons declares .nil)
  apart := by
    rw [List.map_append, List.nodup_append]
    refine ⟨declared.apart, List.pairwise_singleton _ _, fun key member other last same => fresh ?_⟩
    rw [same, List.mem_singleton.1 last] at member
    exact member

end AreDeclared

/-- The parts that come before an offending one, or all of them. -/
theorem declared_or_offends (dialect : Dialect) (parts : List Text) :
    (∃ parameters, AreDeclared dialect parts parameters) ∨
      ∃ good bad later parameters, parts = good ++ bad :: later ∧ AreDeclared dialect good parameters ∧
        ∀ parameter, Parameter.Declares dialect (Text.trim bad) parameter →
          Name.variableKey parameter.name ∈ parameters.map (Name.variableKey ·.name) := by
  induction parts using List.reverseRecOn with
  | nil => exact .inl ⟨[], .nil, List.nodup_nil⟩
  | append_singleton parts part ih =>
    obtain ⟨parameters, declared⟩ | ⟨good, bad, later, parameters, rfl, declared, offends⟩ := ih
    · by_cases offends : ∀ parameter, Parameter.Declares dialect (Text.trim part) parameter →
          Name.variableKey parameter.name ∈ parameters.map (Name.variableKey ·.name)
      · exact .inr ⟨parts, part, [], parameters, rfl, declared, offends⟩
      · push Not at offends
        obtain ⟨parameter, declares, fresh⟩ := offends
        exact .inl ⟨_, declared.concat declares fresh⟩
    · exact .inr ⟨good, bad, later ++ [part], parameters, by simp, declared, offends⟩

/-- What an excerpt is read as. A head is refused for its first part that declares no parameter, or declares one whose
key is that of a parameter before it. -/
inductive Judged (dialect : Dialect) (excerpt : Excerpt) : Except Fault Header → Prop where
  | accepted {name : Text} {list : Option Text} {parts : List Text} {parameters : List Parameter}
      (spelled : Spells excerpt.source name list) (cut : HasParts list parts)
      (declared : AreDeclared dialect parts parameters) :
      Judged dialect excerpt (.ok ⟨Name.lowered name, parameters, excerpt⟩)
  | repeated {name bad : Text} {list : Option Text} {good later : List Text} {parameters : List Parameter}
      {parameter : Parameter} (spelled : Spells excerpt.source name list) (cut : HasParts list (good ++ bad :: later))
      (declared : AreDeclared dialect good parameters) (declares : parameter.Declares dialect (Text.trim bad))
      (again : Name.variableKey parameter.name ∈ parameters.map (Name.variableKey ·.name)) :
      Judged dialect excerpt (.error (.duplicateParameter (Name.lowered name) parameter.name excerpt.site))
  | unread {name bad : Text} {list : Option Text} {good later : List Text} {parameters : List Parameter}
      (spelled : Spells excerpt.source name list) (cut : HasParts list (good ++ bad :: later))
      (declared : AreDeclared dialect good parameters)
      (none : ∀ parameter : Parameter, ¬ parameter.Declares dialect (Text.trim bad)) :
      Judged dialect excerpt (.error (.invalidDeclaration excerpt.site (Text.trim excerpt.source)))
  | unspelled (none : ∀ name list, ¬ Spells excerpt.source name list) :
      Judged dialect excerpt (.error (.invalidDeclaration excerpt.site (Text.trim excerpt.source)))

section
variable {dialect : Dialect} {excerpt : Excerpt}

theorem ofExcerpt_of_spells {name : Text} {list : Option Text} {parts : List Text}
    (spelled : Spells excerpt.source name list) (cut : HasParts list parts) :
    ofExcerpt dialect excerpt = (readParameters dialect excerpt (Name.lowered name) [] parts).map fun parameters =>
      ⟨Name.lowered name, parameters, excerpt⟩ := by
  rw [ofExcerpt, signature_eq_ok.2 ⟨spelled, rfl⟩, hasParts_iff.1 cut, ← Name.functionKey_of_continues spelled.continues]

/-- The parts before an offending one are passed over. -/
theorem readParameters_behind (excerpt : Excerpt) (function : Text) {good : List Text} {parameters : List Parameter}
    (declared : AreDeclared dialect good parameters) (rest : List Text) :
    readParameters dialect excerpt function [] (good ++ rest) =
      (readParameters dialect excerpt function (parameters.map (Name.variableKey ·.name)).reverse rest).map
        (parameters ++ ·) := by
  have passed := readParameters_append declared.reads declared.apart excerpt function (fun _ _ => List.not_mem_nil) rest
  rwa [List.append_nil] at passed

theorem Judged.ofExcerpt_eq {result : Except Fault Header} (judged : Judged dialect excerpt result) :
    ofExcerpt dialect excerpt = result := by
  cases judged with
  | accepted spelled cut declared =>
    rw [ofExcerpt_of_spells spelled cut,
      readParameters_eq_ok.2 ⟨declared.reads, declared.apart, fun _ _ => List.not_mem_nil⟩]
    rfl
  | repeated spelled cut declared declares again =>
    rw [ofExcerpt_of_spells spelled cut, readParameters_behind _ _ declared, readParameters,
      Parameter.ofText?_eq_some.2 declares]
    dsimp only
    rw [if_pos (List.mem_reverse.2 again)]
    rfl
  | @unread _ bad _ _ _ _ spelled cut declared none =>
    have refused : Parameter.ofText? dialect bad = .none :=
      Option.eq_none_iff_forall_ne_some.2 fun parameter reads => none parameter (Parameter.ofText?_eq_some.1 reads)
    rw [ofExcerpt_of_spells spelled cut, readParameters_behind _ _ declared, readParameters, refused]
    rfl
  | unspelled none =>
    rw [ofExcerpt]
    rcases reads : signature excerpt.source with place | ⟨⟨name, list⟩, rest⟩
    · rfl
    · exact absurd (signature_eq_ok.1 reads).1 (none name list)

theorem exists_judged (dialect : Dialect) (excerpt : Excerpt) : ∃ result, Judged dialect excerpt result := by
  by_cases spelled : ∃ name list, Spells excerpt.source name list
  · obtain ⟨name, list, spelled⟩ := spelled
    have cut : HasParts list (parameterTexts list) := hasParts_iff.2 rfl
    obtain ⟨parameters, declared⟩ | ⟨good, bad, later, parameters, parts, declared, offends⟩ :=
      declared_or_offends dialect (parameterTexts list)
    · exact ⟨_, .accepted spelled cut declared⟩
    · rw [parts] at cut
      by_cases declares : ∃ parameter : Parameter, parameter.Declares dialect (Text.trim bad)
      · obtain ⟨parameter, declares⟩ := declares
        exact ⟨_, .repeated spelled cut declared declares (offends parameter declares)⟩
      · exact ⟨_, .unread spelled cut declared (not_exists.1 declares)⟩
  · exact ⟨_, .unspelled fun name list spells => spelled ⟨name, list, spells⟩⟩

end

/-- Every excerpt is read as it is judged, and as nothing else. The name of a function that is accepted has small
letters, digits and underscores only, and at least one of them; its defaults are trimmed and not empty. -/
theorem ofExcerpt_exact (dialect : Dialect) (excerpt : Excerpt) :
    (∀ result, ofExcerpt dialect excerpt = result ↔ Judged dialect excerpt result) ∧
      ∀ header, ofExcerpt dialect excerpt = .ok header →
        header.name ≠ [] ∧ (∀ c ∈ header.name, c.isLower = true ∨ c.isDigit = true ∨ c = '_') ∧
          ∀ parameter ∈ header.parameters, ∀ default ∈ parameter.default,
            default ≠ [] ∧ Text.trim default = default := by
  have judges : ∀ result, ofExcerpt dialect excerpt = result ↔ Judged dialect excerpt result := by
    refine fun result => ⟨?_, Judged.ofExcerpt_eq⟩
    rintro rfl
    obtain ⟨result, judged⟩ := exists_judged dialect excerpt
    rwa [judged.ofExcerpt_eq]
  refine ⟨judges, fun header reads => ?_⟩
  cases (judges _).1 reads with
  | @accepted name _ _ _ spelled _ declared =>
    have letters := spelled.continues
    refine ⟨mt List.map_eq_nil_iff.1 spelled.name_ne_nil, ?_, fun parameter member default given => ?_⟩
    · exact Name.functionKey_of_continues letters ▸ Name.letters_of_functionKey name
    · obtain ⟨part, -, declares⟩ := declared.exists_part member
      exact declares.default_visible given

/-- The comma in parentheses cuts nothing, and the third part repeats the second with an underscore for the dash.
Without it the head is accepted. -/
theorem ofExcerpt_exact_respelled :
    let repeated : Excerpt := ⟨"@function Top-Gap ($a, $b-c : max(1, 2), $b_c)".toList, ⟨['m'], 7⟩⟩
    let accepted : Excerpt := ⟨"@function Top-Gap ($a, $b-c : max(1, 2))".toList, ⟨['m'], 7⟩⟩
    let header : Header := ⟨"top_gap".toList, [⟨['a'], none⟩, ⟨"b-c".toList, some "max(1, 2)".toList⟩], accepted⟩
    ofExcerpt .standard accepted = .ok header ∧ Judged .standard accepted (.ok header) ∧
      (header.name ≠ [] ∧ (∀ c ∈ header.name, c.isLower = true ∨ c.isDigit = true ∨ c = '_') ∧
        ∀ parameter ∈ header.parameters, ∀ default ∈ parameter.default, default ≠ [] ∧ Text.trim default = default) ∧
      Judged .standard repeated (.error (.duplicateParameter "top_gap".toList "b_c".toList ⟨['m'], 7⟩)) := by
  intro repeated accepted header
  have reads : ofExcerpt .standard accepted = .ok header := by
    apply Reading.eq_ok_of_toOption
    decide +kernel
  have refuses : ofExcerpt .standard repeated =
      .error (.duplicateParameter "top_gap".toList "b_c".toList ⟨['m'], 7⟩) := by
    rfl
  exact ⟨reads, ((ofExcerpt_exact .standard accepted).1 _).1 reads, (ofExcerpt_exact .standard accepted).2 header reads,
    ((ofExcerpt_exact .standard repeated).1 _).1 refuses⟩

end Header
end StyleScript
