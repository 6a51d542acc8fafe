import StyleScript.Proofs.Skipping
import StyleScript.Statement.Grammar

/-! A source cut into pieces: what a statement was read from, and what stands around it. The
pieces are listed in the order of the source, and each knows where it begins. -/

namespace StyleScript
open Text (isWhite newlines)

inductive Piece where
  | head (excerpt : Excerpt)
  | condition (text : Text)
  | white (c : Char)
  | comment (text : Text)
  | semicolon
  | opening
  | closing
  | elseWord
  | ifWord (site : Site)

namespace Piece

def text : Piece → Text
  | .head excerpt => excerpt.source
  | .condition text | .comment text => text
  | .white c => [c]
  | .semicolon => [';']
  | .opening => ['{']
  | .closing => ['}']
  | .elseWord => "@else".toList
  | .ifWord _ => "if".toList

/-- The site that a tree has for a piece. -/
def site? : Piece → Option Site
  | .head excerpt => some excerpt.site
  | .ifWord site => some site
  | _ => none

/-- A piece is what its name says, before what comes after it. -/
def Proper : Piece → Text → Prop
  | .white c, _ => isWhite c = true
  | .comment text, rest => Trivia.IsComment text rest
  | piece, _ => piece.text ≠ []

/-- The pieces that may stand before, between and after statements. -/
def IsGap : Piece → Prop
  | .white _ | .comment _ | .semicolon => True
  | _ => False

theorem Proper.nonempty {piece : Piece} {rest : Text} (proper : piece.Proper rest) : piece.text ≠ [] := by
  cases piece with
  | white c => exact List.cons_ne_nil _ _
  | comment text => cases proper <;> exact List.cons_ne_nil _ _
  | _ => exact proper

end Piece

def Gap (pieces : List Piece) : Prop := ∀ piece ∈ pieces, piece.IsGap

theorem Gap.nil : Gap [] := List.forall_mem_nil _

theorem Gap.cons {piece : Piece} {pieces : List Piece} (isGap : piece.IsGap) (later : Gap pieces) :
    Gap (piece :: pieces) :=
  List.forall_mem_cons.2 ⟨isGap, later⟩

theorem Gap.append {first second : List Piece} (one : Gap first) (other : Gap second) : Gap (first ++ second) := by
  intro piece member
  obtain member | member := List.mem_append.1 member
  · exact one piece member
  · exact other piece member

mutual

/-- The pieces of one statement: its head comes first, and its bodies are inside its braces. -/
inductive Cut : List Piece → Statement → Prop where
  | function {header : Header} {block : List Piece} {body : List Statement} (inside : CutBlock block body) :
      Cut (.head header.excerpt :: block) (.function header body)
  | bodiless {header : Header} : Cut [.head header.excerpt] (.function header [])
  | returns {excerpt : Excerpt} {expression : Text} : Cut [.head excerpt] (.returns excerpt expression)
  | assign {excerpt : Excerpt} {name expression : Text} {isDefault : Bool} :
      Cut [.head excerpt] (.assign excerpt name expression isDefault)
  | conditional {excerpt : Excerpt} {condition : Text} {block others : List Piece} {body : List Statement}
      {otherwise : Otherwise} (inside : CutBlock block body) (later : CutOtherwise others otherwise) :
      Cut (.head excerpt :: (block ++ others)) (.conditional excerpt condition body otherwise)
  | print {excerpt : Excerpt} {severity : Severity} {expression : Text} :
      Cut [.head excerpt] (.print excerpt severity expression)

inductive CutBlock : List Piece → List Statement → Prop where
  | braces {gap pieces : List Piece} {body : List Statement} (isGap : Gap gap) (inside : CutAll pieces body) :
      CutBlock (gap ++ .opening :: (pieces ++ [.closing])) body

inductive CutOtherwise : List Piece → Otherwise → Prop where
  | nothing : CutOtherwise [] .nothing
  | block {gap block : List Piece} {body : List Statement} (isGap : Gap gap) (inside : CutBlock block body) :
      CutOtherwise (gap ++ .elseWord :: block) (.block body)
  | condition {gap between after block others : List Piece} {site : Site} {condition : Text} {body : List Statement}
      {otherwise : Otherwise} (isGap : Gap gap) (isBetween : Gap between) (isAfter : Gap after)
      (inside : CutBlock block body) (later : CutOtherwise others otherwise) :
      CutOtherwise (gap ++ .elseWord ::
        (between ++ .ifWord site :: (after ++ .condition condition :: (block ++ others))))
        (.condition site condition body otherwise)

inductive CutAll : List Piece → List Statement → Prop where
  | done {gap : List Piece} (isGap : Gap gap) : CutAll gap []
  | item {gap first rest : List Piece} {statement : Statement} {statements : List Statement} (isGap : Gap gap)
      (cut : Cut first statement) (later : CutAll rest statements) :
      CutAll (gap ++ (first ++ rest)) (statement :: statements)

end

theorem CutBlock.prepend {gap block : List Piece} {body : List Statement} (isGap : Gap gap)
    (cut : CutBlock block body) : CutBlock (gap ++ block) body := by
  obtain ⟨inner, inside⟩ := cut
  rw [← List.append_assoc]
  exact .braces (isGap.append inner) inside

theorem CutAll.prepend {gap pieces : List Piece} {body : List Statement} (isGap : Gap gap)
    (cut : CutAll pieces body) : CutAll (gap ++ pieces) body := by
  obtain inner | ⟨inner, first, later⟩ := cut
  · exact .done (isGap.append inner)
  · rw [← List.append_assoc]
    exact .item (isGap.append inner) first later

/-- What comes after `before` in a source is a text in pieces, each at its site. -/
inductive Cuts (sheet : Sheet) : Text → Text → List Piece → Prop where
  | nil {before : Text} : Cuts sheet before [] []
  | cons {before text : Text} {piece : Piece} {pieces : List Piece} (nonempty : piece.text ≠ [])
      (proper : ∀ rest, sheet.source = before ++ (piece.text ++ rest) → piece.Proper rest)
      (sited : ∀ site ∈ piece.site?, site = ⟨sheet.filename, 1 + newlines before⟩)
      (later : Cuts sheet (before ++ piece.text) text pieces) : Cuts sheet before (piece.text ++ text) (piece :: pieces)

section
variable {sheet : Sheet} {before first second text rest : Text} {pieces others : List Piece}

theorem Cuts.append (one : Cuts sheet before first pieces) (other : Cuts sheet (before ++ first) second others) :
    Cuts sheet before (first ++ second) (pieces ++ others) := by
  induction one with
  | nil =>
    rw [List.append_nil] at other
    exact other
  | cons nonempty proper sited later ih =>
    rw [← List.append_assoc] at other
    rw [List.append_assoc]
    exact .cons nonempty proper sited (ih other)

theorem Cuts.single (piece : Piece) (nonempty : piece.text ≠ [])
    (proper : ∀ rest, sheet.source = before ++ (piece.text ++ rest) → piece.Proper rest)
    (sited : ∀ site ∈ piece.site?, site = ⟨sheet.filename, 1 + newlines before⟩) :
    Cuts sheet before piece.text [piece] := by
  have once := Cuts.cons nonempty proper sited (.nil : Cuts sheet (before ++ piece.text) [] [])
  rw [List.append_nil] at once
  exact once

/-- A piece that has no site and does not mind what comes after it. -/
theorem Cuts.mark (piece : Piece) (proper : ∀ rest, piece.Proper rest) (unsited : piece.site? = none) :
    Cuts sheet before piece.text [piece] := by
  refine .single piece (proper []).nonempty (fun rest _ => proper rest) fun site member => ?_
  rw [unsited] at member
  cases member

theorem exists_cuts_whites (sheet : Sheet) (before : Text) (white : ∀ c ∈ text, isWhite c = true) :
    ∃ pieces, Cuts sheet before text pieces ∧ Gap pieces := by
  induction text generalizing before with
  | nil => exact ⟨[], .nil, .nil⟩
  | cons c text ih =>
    obtain ⟨pieces, cuts, gap⟩ := ih (before ++ [c]) fun d member => white d (List.mem_cons_of_mem _ member)
    have here : Cuts sheet before [c] [.white c] := .mark (.white c) (fun _ => white c List.mem_cons_self) rfl
    exact ⟨_, here.append cuts, gap.cons trivial⟩

theorem exists_cuts_skipped (before : Text) (whole : sheet.source = before ++ (text ++ rest))
    (skipped : Trivia.Skipped rest text) :
    ∃ pieces, Cuts sheet before text pieces ∧ Gap pieces := by
  induction skipped generalizing before with
  | nil => exact ⟨[], .nil, .nil⟩
  | @blank c text blank _ ih =>
    obtain ⟨pieces, cuts, gap⟩ := ih (before ++ [c]) (by rw [whole]; simp)
    have here : Cuts sheet before [c] [.white c] := .mark (.white c) (fun _ => Text.isWhite_of_isBlank blank) rfl
    exact ⟨_, here.append cuts, gap.cons trivial⟩
  | @comment comment text isComment _ ih =>
    rw [List.append_assoc] at whole
    obtain ⟨pieces, cuts, gap⟩ := ih (before ++ comment) (by rw [whole]; simp)
    have here : Cuts sheet before comment [.comment comment] := by
      have proper : (Piece.comment comment).Proper _ := isComment
      refine .single (.comment comment) proper.nonempty (fun left same => ?_) fun site member => ?_
      · rw [whole] at same
        rw [← List.append_cancel_left (List.append_cancel_left same)]
        exact isComment
      · cases member
    exact ⟨_, here.append cuts, gap.cons trivial⟩

end

structure Place where
  start : Nat
  piece : Piece

namespace Place

/-- The offset after the last character of a piece. -/
def finish (place : Place) : Nat := place.start + place.piece.text.length

/-- Where the piece stands in the source that it was cut from. -/
structure Stands (sheet : Sheet) (place : Place) : Prop where
  inside : place.piece.text <+: sheet.source.drop place.start
  proper : place.piece.Proper (sheet.source.drop place.finish)
  sited : ∀ site ∈ place.piece.site?, site = ⟨sheet.filename, 1 + newlines (sheet.source.take place.start)⟩

end Place

/-- The pieces with their offsets, counted from the offset of the first. -/
def places : Nat → List Piece → List Place
  | _, [] => []
  | start, piece :: pieces => ⟨start, piece⟩ :: places (start + piece.text.length) pieces

section
variable {sheet : Sheet} {before text rest : Text} {pieces : List Piece}

theorem Cuts.whole (cuts : Cuts sheet before text pieces) : pieces.flatMap Piece.text = text := by
  induction cuts with
  | nil => rfl
  | cons _ _ _ _ ih => rw [List.flatMap_cons, ih]

theorem Cuts.stands (cuts : Cuts sheet before text pieces) (whole : sheet.source = before ++ (text ++ rest)) :
    ∀ place ∈ places before.length pieces, place.Stands sheet := by
  induction cuts with
  | nil => exact List.forall_mem_nil _
  | @cons before text piece pieces _ proper sited _ ih =>
    rw [List.append_assoc] at whole
    refine List.forall_mem_cons.2 ⟨⟨?_, ?_, ?_⟩, ?_⟩
    · rw [whole, List.drop_left]
      exact List.prefix_append _ _
    · have there : sheet.source.drop (before.length + piece.text.length) = text ++ rest := by
        rw [whole, ← List.append_assoc, ← List.length_append, List.drop_left]
      rw [Place.finish, there]
      exact proper _ whole
    · rw [whole, List.take_left]
      exact sited
    · have later := ih (by rw [whole]; simp)
      rw [List.length_append] at later
      exact later

theorem le_start_of_mem {pieces : List Piece} {start : Nat} {place : Place} (member : place ∈ places start pieces) :
    start ≤ place.start := by
  induction pieces generalizing start with
  | nil => cases member
  | cons piece pieces ih =>
    obtain rfl | member := List.mem_cons.1 member
    · exact Nat.le_refl _
    · exact Nat.le_trans (Nat.le_add_right _ _) (ih member)

theorem Cuts.increasing (cuts : Cuts sheet before text pieces) (start : Nat) :
    (places start pieces).Pairwise fun first later => first.start < first.finish ∧ first.finish ≤ later.start := by
  induction cuts generalizing start with
  | nil => exact .nil
  | cons nonempty _ _ _ ih =>
    refine .cons (fun later member => ⟨?_, le_start_of_mem member⟩) (ih _)
    exact Nat.lt_add_of_pos_right (List.length_pos_iff.2 nonempty)

end
end StyleScript
