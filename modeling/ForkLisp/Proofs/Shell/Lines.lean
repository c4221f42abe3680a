/-
Lines of a text.

A text is its lines one after the other, and every line but the last one ends with a line feed
(`text_induction`). So the line of a place counts the line feeds in front of it
(`line_advance`), and what follows some whole lines is found behind as many
(`getElem?_physicalLines`). If two line feeds end a text in the middle of a form, then this form
goes on over two empty lines (`exists_gap`).
-/
import ForkLisp.Proofs.Reader.Cutting
import ForkLisp.Shell.Conversation

namespace ForkLisp.Shell

open ForkLisp.Reader ForkLisp.Source ForkLisp.Text

variable {cs ds : List Char}

theorem splitLines_append (h : '\n' ∉ cs) (ds : List Char) :
    splitLines (cs ++ '\n' :: ds) = (cs ++ ['\n']) :: splitLines ds := by
  induction cs with
  | nil => rw [List.nil_append, splitLines, if_pos rfl, List.nil_append]
  | cons c cs ih =>
    obtain ⟨hc, hcs⟩ := List.ne_and_not_mem_of_not_mem_cons h
    rw [List.cons_append, splitLines, if_neg (Ne.symm hc), ih hcs]
    rfl

theorem splitLines_last (h : '\n' ∉ cs) (hne : cs ≠ []) : splitLines cs = [cs] := by
  induction cs with
  | nil => exact absurd rfl hne
  | cons c cs ih =>
    obtain ⟨hc, hcs⟩ := List.ne_and_not_mem_of_not_mem_cons h
    rw [splitLines, if_neg (Ne.symm hc)]
    by_cases hnil : cs = []
    · rw [hnil, splitLines]
    · rw [ih hcs hnil]

/-- A text has no lines, or it is one line without an end, or a line and more behind it. -/
theorem lines_induction {P : List Char → Prop} (nil : P [])
    (last : ∀ cs, '\n' ∉ cs → cs ≠ [] → P cs)
    (line : ∀ cs ds, '\n' ∉ cs → P ds → P (cs ++ '\n' :: ds)) (cs : List Char) : P cs := by
  by_cases h : '\n' ∈ cs
  · obtain ⟨front, back, hcs, hfront⟩ := List.eq_append_cons_of_mem h
    have hlt : back.length < cs.length := by
      rw [hcs, List.length_append, List.length_cons]
      omega
    rw [hcs]
    exact line front back hfront (lines_induction nil last line back)
  · by_cases hne : cs = []
    · rw [hne]
      exact nil
    · exact last cs h hne
termination_by cs.length

/-- Behind whole lines, as many as there are line feeds, the lines are those of the rest. -/
theorem splitLines_lines (cs ds : List Char) : ∃ ls, ls.length = cs.count '\n' + 1 ∧
    splitLines (cs ++ '\n' :: ds) = ls ++ splitLines ds := by
  induction cs using lines_induction with
  | nil => exact ⟨[['\n']], rfl, splitLines_append List.not_mem_nil ds⟩
  | last cs h _ =>
    exact ⟨[cs ++ ['\n']], by rw [List.count_eq_zero_of_not_mem h]; rfl, splitLines_append h ds⟩
  | line cs cs' h ih =>
    obtain ⟨ls, hlength, hls⟩ := ih
    refine ⟨(cs ++ ['\n']) :: ls, ?_, ?_⟩
    · rw [List.length_cons, hlength, List.count_append, List.count_eq_zero_of_not_mem h,
        List.count_cons_self, Nat.zero_add]
    · rw [List.append_assoc, List.cons_append, splitLines_append h, hls, List.cons_append]

theorem text_induction {P : String → Prop} (empty : P "")
    (last : ∀ line, '\n' ∉ line.toList → line ≠ "" → P line)
    (line : ∀ line rest, '\n' ∉ line.toList → P rest → P (line ++ "\n" ++ rest))
    (text : String) : P text := by
  rw [← String.ofList_toList (s := text)]
  induction text.toList using lines_induction with
  | nil => exact empty
  | last cs h hne =>
    refine last _ (by rwa [String.toList_ofList]) fun hnil => hne ?_
    rw [← String.toList_ofList (l := cs), hnil, String.toList_empty]
  | line cs ds h ih =>
    have htext : String.ofList (cs ++ '\n' :: ds) = String.ofList cs ++ "\n" ++ String.ofList ds :=
      String.ext (by simp)
    rw [htext]
    exact line _ _ (by rwa [String.toList_ofList]) ih

theorem physicalLines_line {line : String} (h : '\n' ∉ line.toList) (rest : String) :
    physicalLines (line ++ "\n" ++ rest) = (line ++ "\n") :: physicalLines rest := by
  have htext : (line ++ "\n" ++ rest).toList = line.toList ++ '\n' :: rest.toList := by simp
  unfold physicalLines
  rw [htext, splitLines_append h, List.map_cons]
  exact congrArg (· :: _) (String.ext (by simp))

theorem physicalLines_last {line : String} (h : '\n' ∉ line.toList) (hne : line ≠ "") :
    physicalLines line = [line] := by
  unfold physicalLines
  rw [splitLines_last h fun hnil => hne (String.toList_eq_nil_iff.mp hnil), List.map_singleton,
    String.ofList_toList]

/-- A place is on a line further down for each line feed. -/
theorem line_advance (p : Position) (cs : List Char) :
    (p.advance cs).line = p.line + cs.count '\n' := by
  induction cs generalizing p with
  | nil => rfl
  | cons c cs ih =>
    rw [Position.advance_cons, ih, Position.next]
    by_cases hc : c = '\n'
    · rw [if_pos hc, hc, List.count_cons_self]
      exact Nat.add_right_comm p.line 1 _
    · rw [if_neg hc, List.count_cons_of_ne hc]

/-! ### Ends of lines -/

/-- How a line may end. -/
def IsLineEnd (e : String) : Prop := e = "\n" ∨ e = "\r\n"

theorem IsLineEnd.isBreak {e : String} (h : IsLineEnd e) : IsBreak e := by
  rcases h with rfl | rfl
  · exact ⟨'\n', [], rfl, by decide, nofun⟩
  · exact ⟨'\r', ['\n'], rfl, by decide, by simp [isLayout]⟩

theorem dropLineEnd_line {text : String} (h : text.toList = cs ++ ['\n']) :
    ∃ e, IsLineEnd e ∧ text = dropLineEnd text ++ e := by
  have hreverse : text.toList.reverse = '\n' :: cs.reverse := by
    rw [h, List.reverse_append]
    rfl
  unfold dropLineEnd
  rw [hreverse]
  split
  · rename_i ds heq
    obtain ⟨-, hds⟩ := List.cons.inj heq
    refine ⟨"\r\n", .inr rfl, String.ext ?_⟩
    rw [h, List.reverse_eq_iff.mp hds]
    simp
  · rename_i ds _ heq
    obtain ⟨-, hds⟩ := List.cons.inj heq
    refine ⟨"\n", .inl rfl, String.ext ?_⟩
    rw [h, ← hds]
    simp
  · rename_i hno
    exact absurd rfl (hno cs.reverse)

theorem dropLineEnd_last {text : String} (h : text.toList.getLast? ≠ some '\n') :
    dropLineEnd text = text := by
  unfold dropLineEnd
  rw [List.getLast?_eq_head?_reverse] at h
  split
  · rename_i heq
    rw [heq] at h
    exact absurd rfl h
  · rename_i heq
    rw [heq] at h
    exact absurd rfl h
  · rfl

/-! ### Empty lines -/

/-- A line, counted from one, holds nothing but its end. -/
def IsEmptyLine (text : String) (n : Nat) : Prop :=
  ∃ line, (physicalLines text)[n - 1]? = some line ∧ dropLineEnd line = ""

/-- A range goes on over two empty lines, one right behind the other. -/
def HasGap (text : String) (r : Range) : Prop :=
  ∃ n < r.stop.line, r.start.line < n ∧ n + 1 < r.stop.line ∧ IsEmptyLine text n ∧
    IsEmptyLine text (n + 1)

instance (text : String) (n : Nat) : Decidable (IsEmptyLine text n) :=
  decidable_of_iff ((physicalLines text)[n - 1]?.any (dropLineEnd · == "") = true) <| by
    simp only [Option.any_eq_true, beq_iff_eq]
    rfl

instance (text : String) (r : Range) : Decidable (HasGap text r) :=
  inferInstanceAs (Decidable (∃ n < _, _))

section

variable {text front back e : String} {fs : List Form}

theorem getElem?_physicalLines (front back : String) (k : Nat) :
    (physicalLines (front ++ "\n" ++ back))[front.toList.count '\n' + 1 + k]? =
    (physicalLines back)[k]? := by
  obtain ⟨ls, hlength, hls⟩ := splitLines_lines front.toList back.toList
  have htext : (front ++ "\n" ++ back).toList = front.toList ++ '\n' :: back.toList := by simp
  have hlines : (ls.map String.ofList).length = front.toList.count '\n' + 1 := by
    rw [List.length_map, hlength]
  unfold physicalLines
  rw [htext, hls, List.map_append, ← hlines, List.getElem?_append_right (Nat.le_add_right _ _),
    Nat.add_sub_cancel_left]

/-- An empty line is what its end is. -/
theorem physicalLines_lineEnd (he : IsLineEnd e) (back : String) :
    physicalLines (e ++ back) = e :: physicalLines back ∧ dropLineEnd e = "" := by
  rcases he with rfl | rfl
  · have hline : '\n' ∉ "".toList := by decide
    exact ⟨physicalLines_line hline back, by decide⟩
  · have hline : '\n' ∉ "\r".toList := by decide
    exact ⟨physicalLines_line hline back, by decide⟩

/-- If a text cannot be read alone, empty lines in front of it are in the middle of a form. -/
theorem exists_gap (he : IsLineEnd e) (h : read (front ++ ("\n\n" ++ e) ++ back) = .ok fs)
    (ho : ∀ gs, read back ≠ .ok gs) :
    ∃ f ∈ fs, HasGap (front ++ ("\n\n" ++ e) ++ back) f.range := by
  have hbreak : IsBreak ("\n\n" ++ e) := by
    refine ⟨'\n', '\n' :: e.toList, by simp, by decide, ?_⟩
    rcases he with rfl | rfl <;> simp [isLayout]
  have hcount : ("\n\n" ++ e).toList.count '\n' = 3 := by
    rcases he with rfl | rfl <;> simp
  have hopen : ∀ gs, read front ≠ .ok gs := by
    rcases read_cut hbreak h with ⟨gs, hs, -, hback, -⟩ | ⟨⟨t, ht⟩, -⟩
    · exact absurd hback (ho hs)
    · intro gs hgs
      cases ht.symm.trans hgs
  obtain ⟨f, hf, hstart, hstop⟩ := exists_open_form hbreak h hopen
  rw [line_advance] at hstart hstop
  rw [String.toList_append, List.count_append, hcount] at hstop
  have hfirst : Position.start.line = 1 := rfl
  -- the first line feed ends the line that `front` stops on, and the others end empty lines
  have htext : front ++ ("\n\n" ++ e) ++ back = front ++ "\n" ++ ("\n" ++ (e ++ back)) := by
    have hfeeds : "\n\n" = "\n" ++ "\n" := rfl
    simp only [hfeeds, String.append_assoc]
  obtain ⟨hfeed, hempty⟩ := physicalLines_lineEnd (e := "\n") (.inl rfl) (e ++ back)
  obtain ⟨hend, hempty'⟩ := physicalLines_lineEnd he back
  refine ⟨f, hf, front.toList.count '\n' +
    2, by omega, by omega, by omega, ⟨"\n", ?_, hempty⟩, e, ?_, hempty'⟩
  · rw [htext]
    refine (getElem?_physicalLines front _ 0).trans ?_
    rw [hfeed]
    rfl
  · rw [htext]
    refine (getElem?_physicalLines front _ 1).trans ?_
    rw [hfeed, hend]
    rfl

end

end ForkLisp.Shell
