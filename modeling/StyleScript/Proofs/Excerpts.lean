import StyleScript.Proofs.Words
import StyleScript.Statement.Grammar

/-! What a statement keeps of its source: the text that it was read from, without the white
characters around it, and the line where that text begins. -/

namespace StyleScript

namespace Text

theorem trimStart_of_stops {text : Text} (visible : Stops isWhite text) : trimStart text = text := by
  cases text with
  | nil => rfl
  | cons c text => rw [trimStart, List.dropWhile_cons, if_neg (by simp [stops_cons.1 visible])]

theorem exists_trimEnd (text : Text) : ∃ whites, text = trimEnd text ++ whites ∧ ∀ c ∈ whites, isWhite c = true := by
  refine ⟨(text.reverse.takeWhile isWhite).reverse, ?_, ?_⟩
  · rw [trimEnd, ← List.reverse_append, List.takeWhile_append_dropWhile, List.reverse_reverse]
  · intro c member
    exact List.all_eq_true.1 List.all_takeWhile c (List.mem_reverse.1 member)

/-- Only white characters at the end are lost from a text that does not begin with one. -/
theorem exists_trim {text : Text} (nonempty : text ≠ []) (visible : Stops isWhite text) :
    ∃ whites, text = trim text ++ whites ∧ trim text ≠ [] ∧ ∀ c ∈ whites, isWhite c = true := by
  obtain ⟨whites, same, white⟩ := exists_trimEnd text
  rw [trim, trimStart_of_stops visible]
  refine ⟨whites, same, fun empty => ?_, white⟩
  rw [empty] at same
  cases text with
  | nil => exact nonempty rfl
  | cons c text =>
    rw [List.nil_append] at same
    have inside := white c (same ▸ List.mem_cons_self)
    rw [stops_cons.1 visible] at inside
    cases inside

theorem trimEnd_append_whites {whites : Text} (text : Text) (white : ∀ c ∈ whites, isWhite c = true) :
    trimEnd (text ++ whites) = trimEnd text := by
  rw [trimEnd, trimEnd, List.reverse_append, List.dropWhile_append_of_pos]
  intro c member
  exact white c (List.mem_reverse.1 member)

theorem trimEnd_trimEnd (text : Text) : trimEnd (trimEnd text) = trimEnd text := by
  obtain ⟨whites, same, white⟩ := exists_trimEnd text
  conv_rhs => rw [same, trimEnd_append_whites _ white]

end Text

namespace Sheet

/-- The site of what is left of the source, by a plain slice. -/
def siteOf (sheet : Sheet) (rest : Text) : Site := .after sheet.filename (Text.before sheet.source rest)

/-- The excerpt from `start` up to `finish`, by plain slices. -/
def excerpt (sheet : Sheet) (start finish : Text) : Excerpt where
  source := Text.trim (Text.before start finish)
  site := sheet.siteOf start

variable {sheet : Sheet} {before text rest : Text}

theorem siteOf_append (whole : sheet.source = before ++ rest) :
    sheet.siteOf rest = ⟨sheet.filename, 1 + Text.newlines before⟩ := by
  rw [siteOf, whole, Text.before_append, Site.after]

theorem excerpt_append (whole : sheet.source = before ++ (text ++ rest)) :
    sheet.excerpt (text ++ rest) rest = ⟨Text.trim text, ⟨sheet.filename, 1 + Text.newlines before⟩⟩ := by
  rw [excerpt, siteOf_append whole, Text.before_append]

end Sheet

namespace Header

theorem ofExcerpt_eq_ok {dialect : Dialect} {excerpt : Excerpt} {header : Header} :
    ofExcerpt dialect excerpt = .ok header ↔
      ∃ name list rest parameters, signature excerpt.source = .ok ((name, list), rest) ∧
        readParameters dialect excerpt (Name.functionKey name) [] (parameterTexts list) = .ok parameters ∧
        header = ⟨Name.functionKey name, parameters, excerpt⟩ := by
  rw [ofExcerpt]
  rcases signature excerpt.source with place | ⟨⟨name, list⟩, rest⟩
  · simp
  · simp only [Except.ok.injEq, Prod.mk.injEq]
    rcases read : readParameters dialect excerpt (Name.functionKey name) []
      (parameterTexts list) with cause | parameters
    · constructor
      · intro impossible
        cases impossible
      · intro parts
        obtain ⟨_, _, _, parameters, ⟨⟨rfl, rfl⟩, -⟩, found, -⟩ := parts
        rw [read] at found
        cases found
    · constructor
      · intro same
        cases same
        exact ⟨name, list, rest, parameters, ⟨⟨rfl, rfl⟩, rfl⟩, read, rfl⟩
      · intro parts
        obtain ⟨_, _, _, parameters, ⟨⟨rfl, rfl⟩, -⟩, found, rfl⟩ := parts
        rw [read] at found
        cases found
        rfl

theorem excerpt_of_ofExcerpt {dialect : Dialect} {excerpt : Excerpt} {header : Header}
    (read : ofExcerpt dialect excerpt = .ok header) : header.excerpt = excerpt := by
  obtain ⟨_, _, _, _, -, -, rfl⟩ := ofExcerpt_eq_ok.1 read
  rfl

end Header
end StyleScript
