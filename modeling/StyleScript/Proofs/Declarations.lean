import StyleScript.Proofs.DraftRoundTrip
import StyleScript.Proofs.Placement
import StyleScript.Proofs.SealedExpr
import Mathlib.Data.List.Forall2
import Mathlib.Data.List.TakeWhile

/-! Declarations of functions as they are written. Whatever the defaults hold in quotes and parentheses,
the head ends at the brace of the body, and the parameters that are read are those that were written. -/

namespace StyleScript

/-- A parameter with the gaps before and after its name, and the default as it stands. -/
structure WrittenParameter where
  before : Text
  name : Text
  after : Text
  default : Option Text

structure WrittenHead where
  name : Text
  parameters : List WrittenParameter

section
open Text (isWhite)
variable (dialect : Dialect)

namespace WrittenParameter

/-- What stands before the separator, if there is one. -/
def target (parameter : WrittenParameter) : Text := dialect.sigil :: (parameter.name ++ parameter.after)

def given : Option Text → Text
  | none => []
  | some default => dialect.separator :: default

def text (parameter : WrittenParameter) : Text :=
  parameter.before ++ (parameter.target dialect ++ given dialect parameter.default)

def read (parameter : WrittenParameter) : Parameter := ⟨parameter.name, parameter.default.map Text.trim⟩

structure Proper (parameter : WrittenParameter) : Prop where
  before : ∀ c ∈ parameter.before, isWhite c = true
  identifier : Name.isIdentifier parameter.name = true
  after : ∀ c ∈ parameter.after, isWhite c = true
  default : ∀ text ∈ parameter.default, ∃ expr, Expr.ofText text = .ok expr

end WrittenParameter

namespace WrittenHead

def list (head : WrittenHead) : Text := [','].intercalate (head.parameters.map (·.text dialect))

/-- What comes after the word. -/
def tail (head : WrittenHead) : Text := ' ' :: (head.name ++ '(' :: (head.list dialect ++ [')']))

def text (head : WrittenHead) : Text := "@function".toList ++ head.tail dialect

structure Proper (head : WrittenHead) : Prop where
  nonempty : head.name ≠ []
  continues : ∀ c ∈ head.name, Name.continues c = true
  parameters : ∀ parameter ∈ head.parameters, parameter.Proper
  apart : (head.parameters.map fun parameter => Name.variableKey parameter.name).Nodup

end WrittenHead
end

namespace Text

theorem trim_ne_nil {text : Text} {c : Char} (member : c ∈ text) (visible : isWhite c = false) : trim text ≠ [] := by
  have starts : Stops isWhite (trimStart text) := stops_dropWhile _ _
  have nonempty : trimStart text ≠ [] := by
    intro empty
    have white := List.dropWhile_eq_nil_iff.1 empty c member
    rw [visible] at white
    cases white
  obtain ⟨_, -, kept, -⟩ := exists_trim nonempty starts
  rw [trim, trimStart_of_stops starts] at kept
  exact kept

theorem trim_ne_nil_of_visible {text : Text} (visible : Visible text) : trim text ≠ [] := by
  obtain ⟨before, c, rfl, last⟩ := visible
  exact trim_ne_nil List.mem_concat_self last

section
variable {whites : Text} (white : ∀ c ∈ whites, isWhite c = true)
include white

theorem trim_whites_append (text : Text) : trim (whites ++ text) = trim text :=
  congrArg trimEnd (List.dropWhile_append_of_pos white)

theorem trim_append_whites (text : Text) : trim (text ++ whites) = trim text := by
  rw [trim, trimStart, List.dropWhile_append]
  split
  next empty =>
    have nothing : trimStart text = [] := List.isEmpty_iff.1 empty
    rw [List.dropWhile_eq_nil_iff.2 white, trim, nothing]
  next => exact trimEnd_append_whites _ white

end
end Text

namespace Expr
open Reading Grammar

theorem sealed_of_ofText {text : Text} {expr : Expr} (reads : ofText text = .ok expr) : Sealed false text := by
  obtain ⟨taken, gap, rfl, takes, blank⟩ := exists_takes_of_ofText reads
  exact (sealed_of_takes takes).append (sealed_of_blanks blank)

end Expr

/-- A parameter is read from what stands before the separator and what stands after it. -/
theorem Parameter.ofText?_of_trim {dialect : Dialect} {text stem name : Text} {default : Option Text}
    (trimmed : Text.trim text = stem ++ WrittenParameter.given dialect default)
    (inside : ∀ c ∈ stem, (c != dialect.separator) = true) (target : Text.trimEnd stem = dialect.sigil :: name)
    (identifier : Name.isIdentifier name = true) (visible : ∀ value ∈ default, Text.trim value ≠ []) :
    ofText? dialect text = some ⟨name, default.map Text.trim⟩ := by
  have stops : Text.Stops (· != dialect.separator) (WrittenParameter.given dialect default) := by
    cases default with
    | none => exact Text.stops_nil _
    | some value => exact Text.stops_cons.2 (by simp)
  obtain ⟨run, left⟩ := Text.takeWhile_append_of_stops inside stops
  rw [ofText?]
  simp only [trimmed, run, left, target]
  rw [if_pos ⟨trivial, identifier⟩]
  cases default with
  | none => rfl
  | some value => exact if_neg (visible value rfl)

theorem Sealed.of_whites {commas : Bool} {text : Text} (white : ∀ c ∈ text, Text.isWhite c = true) : Sealed commas text :=
  .of_class (by decide) white

namespace WrittenParameter
variable {dialect : Dialect} {parameter : WrittenParameter} (proper : parameter.Proper)
include proper

theorem ne_separator : ∀ c ∈ parameter.target dialect, (c != dialect.separator) = true := by
  have outside {test : Char → Bool} (marks : [':', '='].any test = false) {c : Char} (inside : test c = true) :
      (c != dialect.separator) = true := by
    rw [bne_iff_ne]
    rintro rfl
    have member : dialect.separator ∈ [':', '='] := by cases dialect <;> decide
    rw [Text.eq_false_of_any marks member] at inside
    cases inside
  intro c member
  obtain rfl | member := List.mem_cons.1 member
  · cases dialect <;> decide
  · obtain member | member := List.mem_append.1 member
    · exact outside (by decide) (Name.continues_of_isIdentifier proper.identifier c member)
    · exact outside (by decide) (proper.after c member)

theorem visible_name : Text.Visible (dialect.sigil :: parameter.name) :=
  (Text.visible_of_isIdentifier proper.identifier).append [dialect.sigil]

theorem trimEnd_target : Text.trimEnd (parameter.target dialect) = dialect.sigil :: parameter.name := by
  rw [target, ← List.cons_append, Text.trimEnd_append_whites _ proper.after, Text.trimEnd_of_visible (visible_name proper)]

theorem sealed_text : Sealed false (parameter.text dialect) := by
  have given : Sealed false (given dialect parameter.default) := by
    rcases written : parameter.default with _ | default
    · exact .nil
    · obtain ⟨expr, reads⟩ := proper.default default written
      exact .plain (by cases dialect <;> decide) (Expr.sealed_of_ofText reads)
  have name : Sealed false (parameter.name ++ parameter.after) :=
    (Expr.Grammar.sealed_of_identifier proper.identifier).append (.of_whites proper.after)
  exact (Sealed.of_whites proper.before).append ((Sealed.plain (by cases dialect <;> decide) name).append given)

/-- The text of a parameter is read as the parameter, its default trimmed. -/
theorem ofText?_text : Parameter.ofText? dialect (parameter.text dialect) = some parameter.read := by
  have starts (rest : Text) : Text.Stops Text.isWhite (dialect.sigil :: rest) :=
    Text.stops_cons.2 (by cases dialect <;> decide)
  rw [read]
  rcases written : parameter.default with _ | default
  -- Without a default, the gap after the name ends the text and is trimmed.
  · have trimmed : Text.trim (parameter.text dialect) = dialect.sigil :: parameter.name ++ given dialect none := by
      have cut : parameter.target dialect ++ given dialect none = dialect.sigil :: parameter.name ++ parameter.after :=
        List.append_nil _
      rw [text, written, cut, Text.trim_whites_append proper.before, Text.trim_append_whites proper.after,
        Text.trim_of_visible (starts _) (visible_name proper)]
      exact (List.append_nil _).symm
    have inside : ∀ c ∈ dialect.sigil :: parameter.name, (c != dialect.separator) = true := fun c member =>
      ne_separator proper c (List.mem_append_left parameter.after member)
    exact Parameter.ofText?_of_trim trimmed inside (Text.trimEnd_of_visible (visible_name proper)) proper.identifier nofun
  · obtain ⟨expr, reads⟩ := proper.default default written
    obtain ⟨taken, gap, rfl, takes, blank⟩ := Expr.exists_takes_of_ofText reads
    have white : ∀ c ∈ gap, Text.isWhite c = true := fun c member => Text.isWhite_of_isBlank (blank c member)
    have visible : Text.Visible taken := Expr.visible_of_expr taken expr gap takes
    have trimmed : Text.trim (parameter.text dialect) = parameter.target dialect ++ given dialect (some taken) := by
      have cut : given dialect (some (taken ++ gap)) = given dialect (some taken) ++ gap := rfl
      have last : Text.Visible (given dialect (some taken)) := visible.append [dialect.separator]
      have opening : Text.Stops Text.isWhite (parameter.target dialect ++ given dialect (some taken)) := starts _
      rw [text, written, cut, Text.trim_whites_append proper.before, ← List.append_assoc,
        Text.trim_append_whites white, Text.trim_of_visible opening (last.append _)]
    rw [Option.map_some, Text.trim_append_whites white]
    refine Parameter.ofText?_of_trim trimmed (ne_separator proper) (trimEnd_target proper) proper.identifier ?_
    rintro _ ⟨⟩
    exact Text.trim_ne_nil_of_visible visible

end WrittenParameter

theorem Sealed.intercalate {parts : List Text} (isSealed : ∀ part ∈ parts, Sealed true part) :
    Sealed true ([','].intercalate parts) := by
  induction parts with
  | nil => exact .nil
  | cons part parts ih =>
    obtain ⟨here, later⟩ := List.forall_mem_cons.1 isSealed
    cases parts with
    | nil =>
      rw [List.intercalate_singleton]
      exact here
    | cons next parts =>
      rw [List.intercalate_cons_cons, List.append_assoc]
      exact here.append (.comma (ih later))

namespace WrittenHead
variable {dialect : Dialect} {head : WrittenHead} (proper : head.Proper)
include proper

theorem sealed_parts : ∀ part ∈ head.parameters.map (·.text dialect), Sealed false part := by
  intro part member
  obtain ⟨parameter, inside, rfl⟩ := List.mem_map.1 member
  exact WrittenParameter.sealed_text (proper.parameters parameter inside)

theorem sealed_tail : Sealed false (head.tail dialect) := by
  have list : Sealed true (head.list dialect) := .intercalate fun part member => (sealed_parts proper part member).weaken
  have name : Sealed false head.name := .of_class (by decide) proper.continues
  exact .plain (by decide) (name.append (.enclose list))

theorem parameterTexts_list :
    Header.parameterTexts (some (head.list dialect)) = head.parameters.map (·.text dialect) := by
  have parts : ∀ part ∈ head.parameters.map (·.text dialect), Sealed false part := sealed_parts proper
  rw [Header.parameterTexts, list]
  generalize written : head.parameters = parameters at parts ⊢
  cases parameters with
  | nil => rfl
  | cons parameter others =>
    rw [List.map_cons] at parts ⊢
    have sigil : dialect.sigil ∈ [','].intercalate (parameter.text dialect :: others.map (·.text dialect)) := by
      have first : dialect.sigil ∈ parameter.text dialect :=
        List.mem_append_right _ (List.mem_append_left _ List.mem_cons_self)
      cases others with
      | nil => exact List.intercalate_singleton ▸ first
      | cons next others =>
        rw [List.map_cons, List.intercalate_cons_cons, List.append_assoc]
        exact List.mem_append_left _ first
    rw [if_neg (Text.trim_ne_nil sigil (by cases dialect <;> decide)), commaParts_intercalate (List.cons_ne_nil _ _) parts]

theorem signature_text : Header.signature (head.text dialect) = .ok ((head.name, some (head.list dialect)), []) :=
  Header.signature_of_spells ⟨[], [' '], [], _, rfl, List.forall_mem_singleton.2 rfl, List.cons_ne_nil _ _,
    proper.nonempty, proper.continues, .inr ⟨head.list dialect, [], rfl, rfl, List.forall_mem_nil _⟩⟩

theorem ofExcerpt_text (site : Site) :
    Header.ofExcerpt dialect ⟨head.text dialect, site⟩ =
      .ok ⟨Name.functionKey head.name, head.parameters.map (·.read), ⟨head.text dialect, site⟩⟩ := by
  have reads : List.Forall₂ (fun text parameter => Parameter.ofText? dialect text = some parameter)
      (head.parameters.map (·.text dialect)) (head.parameters.map (·.read)) := by
    rw [List.forall₂_map_left_iff, List.forall₂_map_right_iff, List.forall₂_same]
    exact fun parameter member => WrittenParameter.ofText?_text (proper.parameters parameter member)
  have apart : ((head.parameters.map (·.read)).map (Name.variableKey ·.name)).Nodup := by
    rw [List.map_map]
    exact proper.apart
  refine Header.ofExcerpt_eq_ok.2 ⟨head.name, _, [], _, signature_text proper, ?_, rfl⟩
  rw [parameterTexts_list proper]
  exact Header.readParameters_eq_ok.2 ⟨reads, apart, fun _ _ => List.not_mem_nil⟩

theorem isHead : IsHead dialect (Name.functionKey head.name) (head.parameters.map (·.read)) (head.text dialect) where
  trimmed := by
    have parens : Text.Visible ('(' :: (head.list dialect ++ [')'])) := .mark ('(' :: head.list dialect) (by decide)
    exact Text.trim_of_visible (Text.stops_cons.2 (by decide)) ((parens.append head.name).append "@function ".toList)
  enclosed := by
    have word : Sealed false "@function".toList := .of_all (by decide)
    exact (word.append (sealed_tail proper)).enclosed
  read := ⟨⟨[], 0⟩, ofExcerpt_text proper _⟩

end WrittenHead

namespace Statement.Grammar
open Reading Trivia

/-- A body that is read by itself is read inside of its braces, only lower. -/
theorem takes_block_after {filename body : Text} {dialect : Dialect} {inside : List Statement} (above : Text)
    (reads : (items ⟨filename, dialect, body ++ ['}']⟩).Takes body inside ['}']) {sheet : Sheet}
    (whole : sheet = ⟨filename, dialect, above ++ '{' :: (body ++ ['}'])⟩) :
    (block sheet (items sheet)).Takes (braces [] body) (loweredAll (Text.newlines above) inside) [] := by
  have lines : Text.newlines (above ++ ['{']) = Text.newlines above := Text.newlines_append above ['{']
  have moves : items (Sheet.under ⟨filename, dialect, body ++ ['}']⟩ (above ++ ['{'])) (body ++ ['}']) = _ :=
    moves_items (Sheet.cutAlike_under _ _) (body ++ ['}']) (List.suffix_refl _)
  rw [reads, lines] at moves
  have same : sheet = Sheet.under ⟨filename, dialect, body ++ ['}']⟩ (above ++ ['{']) := by
    rw [whole, Sheet.under, List.append_assoc, List.singleton_append]
  rw [same]
  exact (takes_block (proceeds_items _)).2 ⟨[], body, rfl, skip_cons (by decide) _, moves⟩

/-- A source that is one function. -/
theorem statements_of_head {sheet : Sheet} {name head whites body : Text} {parameters : List Parameter}
    {inside : List Statement} (isHead : IsHead sheet.dialect name parameters head)
    (white : ∀ c ∈ whites, Text.isWhite c = true) (whole : sheet.source = head ++ whites ++ braces [] body)
    (block : (block sheet (items sheet)).Takes (braces [] body) inside []) :
    sheet.statements = .ok [.function ⟨name, parameters, ⟨head, .after sheet.filename []⟩⟩ inside] := by
  obtain ⟨c, tail, same, -⟩ := exists_head isHead
  have starts : sheet.source = '@' :: ("function".toList ++ c :: tail ++ whites ++ braces [] body) := by
    rw [whole, same]
    rfl
  have reads : (statement sheet (items sheet)).Takes sheet.source
      (.function ⟨name, parameters, ⟨head, .after sheet.filename []⟩⟩ inside) [] := by
    have cut : sheet.source ++ [] = head ++ whites ++ (braces [] body ++ []) := by rw [whole, List.append_assoc]
    rw [Takes, cut]
    exact statement_of_head isHead white (by rw [whole, List.append_nil]; rfl) block
  have nothing : (items sheet).Takes [] [] [] := takes_items.2 ⟨[], [], rfl, skip_nil, .inl ⟨rfl, .inl rfl, rfl⟩⟩
  refine statements_eq_ok.2 (takes_items.2 ⟨[], sheet.source, rfl, ?_, .inr (.inr ⟨_, [], sheet.source, [],
    (List.append_nil _).symm, by simp [starts], by simp [starts], reads, nothing, rfl⟩)⟩)
  rw [List.nil_append, List.append_nil, starts]
  exact skip_cons (by decide) _

/-- A draft is read up to the brace that closes it. -/
theorem takes_of_draft {dialect : Dialect} {drafts : Drafts} (proper : drafts.Proper dialect) (filename : Text) :
    (items ⟨filename, dialect, drafts.text dialect ++ ['}']⟩).Takes (drafts.text dialect)
      (drafts.trees dialect filename []) ['}'] :=
  readsAll_of_proper ⟨filename, dialect, drafts.text dialect ++ ['}']⟩ drafts proper [] ['}'] rfl (.inr rfl)

end Statement.Grammar

namespace Sheet
open Statement Statement.Grammar

theorem fromHeaderEnd_declaration {dialect : Dialect} {head : WrittenHead} (proper : head.Proper) {gap : Text}
    (white : ∀ c ∈ gap, Text.isWhite c = true) (rest : Text) :
    fromHeaderEnd none (head.tail dialect ++ (gap ++ '{' :: rest)) = '{' :: rest := by
  rw [fromHeaderEnd_enclosed (WrittenHead.sealed_tail proper).enclosed,
    fromHeaderEnd_enclosed (enclosed_of_whites white)]
  exact if_pos ⟨rfl, .inl rfl⟩

theorem scans_of_expression {text : Text} {expr : Expr} (reads : Expr.parser text = .ok (expr, [])) :
    fromHeaderEnd none text = [] ∧ commaParts text = [text] := by
  have takes : Expr.parser.Takes text expr [] := by
    rw [Reading.Takes, List.append_nil]
    exact reads
  have isSealed := Expr.sealed_of_takes takes
  have scanned := fromHeaderEnd_enclosed isSealed.enclosed []
  rw [List.append_nil] at scanned
  exact ⟨scanned, (Nesting.passes_of_sealed isSealed (by rintro ⟨⟩)).parts⟩

/-- The scans of a head agree with the grammar of expressions. A head ends at the brace of its body, and
a declaration is read with the parameters in the order they were written, their defaults trimmed; its
body may be any text that is read as statements up to a closing brace. In a text that is an expression
there is no end of a head, and no comma between parameters. -/
theorem scans_agree (dialect : Dialect) :
    (∀ head : WrittenHead, head.Proper → ∀ gap : Text, (∀ c ∈ gap, Text.isWhite c = true) →
      (∀ rest, fromHeaderEnd none (head.tail dialect ++ (gap ++ '{' :: rest)) = '{' :: rest) ∧
        ∀ filename body inside, (items ⟨filename, dialect, body ++ ['}']⟩).Takes body inside ['}'] →
          (⟨filename, dialect, head.text dialect ++ gap ++ '{' :: (body ++ ['}'])⟩ : Sheet).statements =
            .ok [.function
              ⟨Name.functionKey head.name, head.parameters.map (·.read), ⟨head.text dialect, ⟨filename, 1⟩⟩⟩
              (loweredAll (Text.newlines (head.text dialect ++ gap)) inside)]) ∧
      ∀ text expr, Expr.parser text = .ok (expr, []) → fromHeaderEnd none text = [] ∧ commaParts text = [text] := by
  refine ⟨fun head proper gap white => ⟨fromHeaderEnd_declaration proper white, ?_⟩, fun _ _ => scans_of_expression⟩
  intro filename body inside reads
  exact statements_of_head (WrittenHead.isHead proper) white rfl (takes_block_after _ reads rfl)

/-- A default that is a call of a call, with every mark in its quotes, and a body on the next line. -/
theorem scans_agree_quoted :
    (⟨"a.scss".toList, .standard,
        "@function F-1($a, $b : g(\"\x7d,:;(\", h('\x7b')) )\n\x7b@return $a;\x7d".toList⟩ : Sheet).statements =
      .ok [.function
        ⟨"f_1".toList, [⟨['a'], none⟩, ⟨['b'], some "g(\"\x7d,:;(\", h('\x7b'))".toList⟩],
          ⟨"@function F-1($a, $b : g(\"\x7d,:;(\", h('\x7b')) )".toList, ⟨"a.scss".toList, 1⟩⟩⟩
        [.returns ⟨"@return $a".toList, ⟨"a.scss".toList, 2⟩⟩ "$a".toList]] ∧
      fromHeaderEnd none "g(\"\x7d,:;(\", h('\x7b'))".toList = [] ∧
      commaParts "g(\"\x7d,:;(\", h('\x7b'))".toList = ["g(\"\x7d,:;(\", h('\x7b'))".toList] := by
  have call : Expr.Grammar.Canonical "g(\"\x7d,:;(\", h('\x7b'))".toList :=
    canonical_of_reads (by decide +kernel) (Text.stops_cons.2 (by decide))
  obtain ⟨⟨expr, parsed⟩, -⟩ := call
  refine ⟨?_, (scans_agree .standard).2 _ expr parsed⟩
  have given : ∃ expr, Expr.ofText " g(\"\x7d,:;(\", h('\x7b')) ".toList = .ok expr := by
    have accepted : (Expr.ofText " g(\"\x7d,:;(\", h('\x7b')) ".toList).toOption.isSome = true := by decide +kernel
    obtain ⟨expr, same⟩ := Option.isSome_iff_exists.1 accepted
    exact ⟨expr, Reading.eq_ok_of_toOption same⟩
  have head : WrittenHead.Proper ⟨"F-1".toList,
      [⟨[], ['a'], [], none⟩, ⟨[' '], ['b'], [' '], some " g(\"\x7d,:;(\", h('\x7b')) ".toList⟩]⟩ := by
    refine ⟨List.cons_ne_nil _ _, List.all_eq_true.1 (by decide), ?_, by decide⟩
    rintro _ (_ | ⟨_, _ | ⟨_, ⟨⟩⟩⟩)
    · exact ⟨by simp, by decide, by simp, nofun⟩
    · refine ⟨by simp [Text.isWhite], by decide, by simp [Text.isWhite], ?_⟩
      rintro _ ⟨⟩
      exact given
  have reference : Expr.Grammar.Canonical "$a".toList :=
    canonical_of_reads (by decide +kernel) (Text.stops_cons.2 (by decide))
  have body : Drafts.Proper .standard (.item [] (.returns [' '] "$a".toList) (.done [.semicolon])) := by
    refine ⟨List.forall_mem_nil _, ⟨by simp [Text.isBlank], Text.stops_cons.2 (by decide), reference⟩,
      fun _ => trivial, ?_⟩
    exact show IsLead _ by simp [IsLead]
  have white : ∀ c ∈ ['\n'], Text.isWhite c = true := by simp [Text.isWhite]
  have name : Name.functionKey "F-1".toList = "f_1".toList := by decide
  have trimmed : Text.trim " g(\"\x7d,:;(\", h('\x7b')) ".toList = "g(\"\x7d,:;(\", h('\x7b'))".toList := by decide
  have whole := ((scans_agree .standard).1 _ head _ white).2 _ _ _ (takes_of_draft body "a.scss".toList)
  rw [name] at whole
  simp only [List.map_cons, List.map_nil, WrittenParameter.read, Option.map_none, Option.map_some, trimmed] at whole
  exact whole

end Sheet
end StyleScript
