import StyleScript.Proofs.Words
import StyleScript.Proofs.Knot
import StyleScript.Text.White
import StyleScript.Trivia

/-! What is skipped between statements. A piece of trivia that stands alone is skipped whatever
comes after it, and what is skipped consists of blanks and comments only. -/

namespace StyleScript.Trivia
open Reading StyleScript.Parser Text

/-- The end of a closed comment. -/
def closing : Parser Unit := fun text =>
  match afterClosing text with
  | some rest => .ok ((), rest)
  | none => .error text

theorem closedComment_eq : closedComment = exactly "/*".toList >>= fun _ => closing := rfl

/-- A text in which no comment is closed. -/
def Unclosed (body : Text) : Prop := ¬ "*/".toList <:+: body

theorem Unclosed.of_cons {c : Char} {body : Text} (unclosed : Unclosed (c :: body)) : Unclosed body :=
  fun inside => unclosed (inside.trans (List.suffix_cons c body).isInfix)

theorem afterClosing_append {body rest : Text} (unclosed : Unclosed body) :
    afterClosing (body ++ '*' :: '/' :: rest) = some rest := by
  induction body with
  | nil => rfl
  | cons c body ih =>
    rw [List.cons_append, afterClosing, ih unclosed.of_cons, if_neg]
    intro here
    obtain ⟨star, slash⟩ := here
    cases body with
    | nil => cases slash
    | cons d body =>
      cases slash
      rw [star] at unclosed
      exact unclosed (List.prefix_append "*/".toList body).isInfix

theorem afterClosing_eq_some {text rest : Text} :
    afterClosing text = some rest ↔ ∃ body, Unclosed body ∧ text = body ++ '*' :: '/' :: rest := by
  constructor
  · intro found
    induction text with
    | nil => cases found
    | cons c text ih =>
      rw [afterClosing] at found
      split at found
      next here =>
        obtain ⟨star, slash⟩ := here
        obtain ⟨tail, same⟩ := List.head?_eq_some_iff.1 slash
        rw [same] at found
        cases found
        rw [star, same]
        exact ⟨[], by simp [Unclosed], rfl⟩
      next other =>
        obtain ⟨body, unclosed, same⟩ := ih found
        refine ⟨c :: body, fun inside => ?_, by rw [same]; rfl⟩
        obtain here | later := List.infix_cons_iff.1 inside
        · -- the mark would have ended the comment at its first character
          obtain ⟨tail, whole⟩ := here
          cases body with
          | nil => cases whole
          | cons d body =>
            cases whole
            rw [same] at other
            exact other ⟨rfl, rfl⟩
        · exact unclosed later
  · intro parts
    obtain ⟨body, unclosed, rfl⟩ := parts
    exact afterClosing_append unclosed

theorem progresses_lineComment : lineComment.Progresses :=
  (progresses_exactly (by decide)).bind fun _ => (proceeds_takeWhile _).bind fun _ => proceeds_pure _

theorem closing_eq_ok {text rest : Text} {value : Unit} :
    closing text = .ok (value, rest) ↔ afterClosing text = some rest := by
  rw [closing]
  cases afterClosing text <;> simp

theorem proceeds_closing : closing.Proceeds := by
  intro text value rest reads
  obtain ⟨body, -, rfl⟩ := afterClosing_eq_some.1 (closing_eq_ok.1 reads)
  exact (List.suffix_append ['*', '/'] rest).trans (List.suffix_append body _)

theorem progresses_closedComment : closedComment.Progresses := by
  rw [closedComment_eq]
  exact (progresses_exactly (by decide)).bind fun _ => proceeds_closing

theorem progresses_piece : piece.Progresses :=
  progresses_orElse progresses_blanks1 (progresses_orElse progresses_lineComment progresses_closedComment)

/-- A comment with the marks that begin and end it, and what comes after it. A comment that runs
to the end of its line ends before the newline. -/
inductive IsComment : Text → Text → Prop where
  | line {text rest : Text} (inside : '\n' ∉ text) (ends : Stops (· != '\n') rest) : IsComment ('/' :: '/' :: text) rest
  | closed {text rest : Text} (unclosed : Unclosed text) : IsComment ('/' :: '*' :: (text ++ ['*', '/'])) rest

theorem takes_lineComment {taken rest : Text} {value : Unit} :
    lineComment.Takes taken value rest ↔
      ∃ text, taken = '/' :: '/' :: text ∧ '\n' ∉ text ∧ Stops (· != '\n') rest := by
  simp (disch := grind) only [lineComment, takes_exactly_bind, takes_bind_pure, takes_takeWhile]
  constructor
  · intro parts
    obtain ⟨_, rfl, text, ⟨rfl, inside, stops⟩, -⟩ := parts
    refine ⟨text, rfl, ?_, stops⟩
    intro member
    exact absurd (inside _ member) (by decide)
  · intro parts
    obtain ⟨text, rfl, outside, stops⟩ := parts
    refine ⟨text, rfl, text, ⟨rfl, ?_, stops⟩, trivial⟩
    intro c member
    rw [bne_iff_ne]
    intro same
    rw [same] at member
    exact outside member

theorem takes_closing {taken rest : Text} {value : Unit} :
    closing.Takes taken value rest ↔ ∃ body, Unclosed body ∧ taken = body ++ ['*', '/'] := by
  rw [Takes, closing_eq_ok, afterClosing_eq_some]
  constructor
  · intro parts
    obtain ⟨body, unclosed, same⟩ := parts
    have whole : taken ++ rest = body ++ ['*', '/'] ++ rest := by rw [same, List.append_assoc]; rfl
    exact ⟨body, unclosed, List.append_cancel_right whole⟩
  · intro parts
    obtain ⟨body, unclosed, rfl⟩ := parts
    exact ⟨body, unclosed, by rw [List.append_assoc]; rfl⟩

theorem takes_closedComment {taken rest : Text} {value : Unit} :
    closedComment.Takes taken value rest ↔ ∃ text, Unclosed text ∧ taken = '/' :: '*' :: (text ++ ['*', '/']) := by
  rw [closedComment_eq, takes_exactly_bind proceeds_closing]
  simp only [takes_closing]
  constructor
  · intro parts
    obtain ⟨_, rfl, text, unclosed, rfl⟩ := parts
    exact ⟨text, unclosed, rfl⟩
  · intro parts
    obtain ⟨text, unclosed, rfl⟩ := parts
    exact ⟨_, rfl, text, unclosed, rfl⟩

/-- What one piece is. -/
theorem blank_or_comment {taken rest : Text} {value : Unit} (takes : piece.Takes taken value rest) :
    (∀ c ∈ taken, isBlank c = true) ∨ IsComment taken rest := by
  rw [piece, takes_orElse, takes_orElse] at takes
  obtain blank | ⟨-, line | ⟨-, closed⟩⟩ := takes
  · exact .inl (takes_blanks1.1 blank).2.1
  · obtain ⟨text, rfl, inside, ends⟩ := takes_lineComment.1 line
    exact .inr (.line inside ends)
  · obtain ⟨text, unclosed, rfl⟩ := takes_closedComment.1 closed
    exact .inr (.closed unclosed)

/-- A comment is a piece, whatever comes after it. -/
theorem takes_piece_of_comment {taken rest : Text} (isComment : IsComment taken rest) : piece.Takes taken () rest := by
  have visible (text : Text) : blanks1.Refuses ('/' :: text) := refuses_blanks1.2 (stops_cons.2 (by decide))
  cases isComment with
  | line inside ends =>
    refine takes_orElse.2 (.inr ⟨visible _, takes_orElse.2 (.inl ?_)⟩)
    exact takes_lineComment.2 ⟨_, rfl, inside, ends⟩
  | closed unclosed =>
    refine takes_orElse.2 (.inr ⟨visible _, takes_orElse.2 (.inr ⟨?_, takes_closedComment.2 ⟨_, unclosed, rfl⟩⟩)⟩)
    refine refuses_bind.2 (.inl (refuses_exactly.2 ?_))
    rintro ⟨_, ⟨⟩⟩

theorem many_piece_skip (text : Text) : ∃ values, many piece text = .ok (values, skip text) := by
  obtain ⟨values, rest, reads⟩ := exists_many progresses_piece text
  have whole : trivia text = .ok ((), rest) := bind_eq_ok.2 ⟨values, rest, reads, rfl⟩
  rw [skip, whole]
  exact ⟨values, reads⟩

theorem skip_of_refuses {text : Text} (refuses : piece.Refuses text) : skip text = text := by
  obtain ⟨values, reads⟩ := many_piece_skip text
  obtain ⟨-, same, -⟩ | ⟨_, _, _, -, here, -⟩ := (many_eq_ok progresses_piece).1 reads
  · exact same
  · exact absurd refuses (not_refuses here)

theorem skip_of_reads {text rest : Text} {value : Unit} (reads : piece text = .ok (value, rest)) :
    skip text = skip rest := by
  obtain ⟨values, whole⟩ := many_piece_skip text
  obtain ⟨_, later⟩ := many_piece_skip rest
  obtain ⟨-, -, refuses⟩ | ⟨_, _, _, -, here, tail⟩ := (many_eq_ok progresses_piece).1 whole
  · exact absurd refuses (not_refuses reads)
  · rw [reads] at here
    cases here
    rw [later] at tail
    simp only [Except.ok.injEq, Prod.mk.injEq] at tail
    exact tail.2.symm

/-- What is skipped before a rest is cut into blanks and comments. -/
inductive Skipped (rest : Text) : Text → Prop where
  | nil : Skipped rest []
  | blank {c : Char} {text : Text} (isBlank : isBlank c = true) (later : Skipped rest text) : Skipped rest (c :: text)
  | comment {comment text : Text} (isComment : IsComment comment (text ++ rest)) (later : Skipped rest text) :
      Skipped rest (comment ++ text)

theorem Skipped.blanks {gap text rest : Text} (blank : ∀ c ∈ gap, Text.isBlank c = true) (later : Skipped rest text) :
    Skipped rest (gap ++ text) := by
  induction gap with
  | nil => exact later
  | cons c gap ih =>
    exact .blank (blank c List.mem_cons_self) (ih fun d member => blank d (List.mem_cons_of_mem _ member))

theorem exists_skipped (text : Text) :
    ∃ gap, text = gap ++ skip text ∧ Skipped (skip text) gap ∧ piece.Refuses (skip text) := by
  induction size : text.length using Nat.strongRecOn generalizing text with
  | ind size ih =>
    subst size
    obtain refuses | ⟨value, rest, reads⟩ := refuses_or_reads piece text
    · rw [skip_of_refuses refuses]
      exact ⟨[], rfl, .nil, refuses⟩
    · obtain ⟨gap, same, skipped, refuses⟩ := ih rest.length (progresses_piece _ _ _ reads).2 rest rfl
      rw [skip_of_reads reads]
      obtain ⟨taken, rfl, takes⟩ := progresses_piece.proceeds.takes reads
      refine ⟨taken ++ gap, by rw [List.append_assoc, ← same], ?_, refuses⟩
      obtain blank | comment := blank_or_comment takes
      · exact .blanks blank skipped
      · rw [same] at comment
        exact .comment comment skipped

/-- A reading that skips first takes a gap, and then what it reads. -/
theorem exists_gap {taken more rest : Text} (same : skip (taken ++ rest) = more ++ rest) :
    ∃ gap, taken = gap ++ more ∧ skip (gap ++ (more ++ rest)) = more ++ rest := by
  obtain ⟨gap, whole, -⟩ := exists_skipped (taken ++ rest)
  rw [same, ← List.append_assoc] at whole
  obtain rfl := List.append_cancel_right whole
  rw [List.append_assoc] at same
  exact ⟨gap, rfl, same⟩

theorem skip_suffix (text : Text) : skip text <:+ text := by
  obtain ⟨gap, same, -⟩ := exists_skipped text
  exact ⟨gap, same.symm⟩

/-- Trivia begins with a blank or with a slash. -/
theorem refuses_piece_of_head {text : Text} (other : Stops (fun c => isBlank c || c == '/') text) :
    piece.Refuses text := by
  have blank : blanks1.Refuses text := refuses_blanks1.2 (other.mono fun c inside => by simp [inside])
  cases text with
  | nil =>
    exact refuses_orElse.2 ⟨blank, refuses_orElse.2 ⟨⟨_, rfl⟩, ⟨_, rfl⟩⟩⟩
  | cons c text =>
    have slash : c ≠ '/' := by
      intro same
      rw [stops_cons, same] at other
      cases other
    exact refuses_orElse.2 ⟨blank, refuses_orElse.2 ⟨refuses_bind.2 (.inl (refuses_exactly_of_head slash)),
      refuses_bind.2 (.inl (refuses_exactly_of_head slash))⟩⟩

theorem skip_of_head {text : Text} (other : Stops (fun c => isBlank c || c == '/') text) : skip text = text :=
  skip_of_refuses (refuses_piece_of_head other)

theorem skip_nil : skip [] = [] := skip_of_head (stops_nil _)

theorem skip_cons {c : Char} (other : (isBlank c || c == '/') = false) (text : Text) : skip (c :: text) = c :: text :=
  skip_of_head (stops_cons.2 other)

theorem skip_blank {c : Char} (blank : isBlank c = true) (text : Text) : skip (c :: text) = skip text := by
  obtain ⟨gap, rest, same, blanks, stops, -⟩ := exists_blanks text
  have inside : ∀ d ∈ c :: gap, isBlank d = true := by
    intro d member
    obtain rfl | member := List.mem_cons.1 member
    · exact blank
    · exact blanks d member
  have whole : piece.Takes (c :: gap) () rest :=
    takes_orElse.2 (.inl (takes_blanks1.2 ⟨List.cons_ne_nil _ _, inside, stops⟩))
  have here : skip (c :: text) = skip rest := by
    rw [same]
    exact skip_of_reads whole
  rw [here, same]
  cases gap with
  | nil => rfl
  | cons d gap =>
    have later : piece.Takes (d :: gap) () rest :=
      takes_orElse.2 (.inl (takes_blanks1.2 ⟨List.cons_ne_nil _ _, blanks, stops⟩))
    exact (skip_of_reads later).symm

theorem skip_line {comment : Text} (inside : '\n' ∉ comment) (text : Text) :
    skip ('/' :: '/' :: (comment ++ '\n' :: text)) = skip text := by
  have here : piece.Takes ('/' :: '/' :: comment) () ('\n' :: text) :=
    takes_piece_of_comment (.line inside (stops_cons.2 (by decide)))
  exact (skip_of_reads here).trans (skip_blank (by decide) text)

theorem skip_closed {comment : Text} (unclosed : Unclosed comment) (text : Text) :
    skip ('/' :: '*' :: (comment ++ '*' :: '/' :: text)) = skip text := by
  have whole : '/' :: '*' :: (comment ++ '*' :: '/' :: text) = '/' :: '*' :: (comment ++ ['*', '/']) ++ text := by simp
  rw [whole]
  exact skip_of_reads (takes_piece_of_comment (.closed unclosed))

theorem Skipped.skip_append {gap rest : Text} (skipped : Skipped rest gap) : skip (gap ++ rest) = skip rest := by
  induction skipped with
  | nil => rfl
  | blank isBlank _ ih => exact (skip_blank isBlank _).trans ih
  | comment isComment _ ih =>
    rw [List.append_assoc]
    exact (skip_of_reads (takes_piece_of_comment isComment)).trans ih

end StyleScript.Trivia
