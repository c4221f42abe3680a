/-
Entries of a text.

An entry ends with the line that closes its forms. So the entries of a text that can be read are
read one by one, their forms are those of the text, and at the end nothing is left of it
(`entriesFrom_read`), as long as no two empty lines in the middle of a form end an entry by force
and no line looks like a command.
-/
import ForkLisp.Proofs.Shell.Lines

namespace ForkLisp.Shell

open ForkLisp.Reader ForkLisp.Source ForkLisp.Text

/-! ### What is left -/

/-- What was read of an entry that some lines do not finish, where `pending` was read before
them. -/
def pendingFrom (pending : String) : List String → String
  | [] => pending
  | line :: lines =>
    if isFinished (dropLineEnd (pending ++ line)) then pendingFrom "" lines
    else pendingFrom (pending ++ line) lines

/-! ### Commands -/

/-- The first character of a text that is not blank is a colon. -/
def LeadsWithColon (text : String) : Prop := text.toList.find? (!isBlank ·) = some ':'

section

variable {text front back : String}

theorem not_leadsWithColon_append (hf : ¬ LeadsWithColon front) (hb : ¬ LeadsWithColon back) :
    ¬ LeadsWithColon (front ++ back) := by
  unfold LeadsWithColon at *
  rw [String.toList_append, List.find?_append]
  cases h : front.toList.find? (!isBlank ·) with
  | none => exact hb
  | some c =>
    rw [h] at hf
    exact hf

theorem not_leadsWithColon_front (h : ¬ LeadsWithColon (front ++ back)) :
    ¬ LeadsWithColon front := by
  intro hf
  unfold LeadsWithColon at hf h
  refine h ?_
  rw [String.toList_append, List.find?_append, hf]
  rfl

/-- A text that starts with a colon leads with it. -/
theorem leadsWithColon_of_head (h : text.toList.head? = some ':') : LeadsWithColon text := by
  obtain ⟨cs, hcs⟩ := List.head?_eq_some_iff.mp h
  unfold LeadsWithColon
  rw [hcs, List.find?_cons_of_pos (by decide)]

/-- The first word of a text starts with what the text leads with. -/
theorem leadsWithColon_of_words {w : String} {ws : List String}
    (h : (words text.toList).map String.ofList = w :: ws) (hw : w.toList.head? = some ':') :
    LeadsWithColon text := by
  obtain ⟨cs, rest, hwords, rfl, -⟩ := List.map_eq_cons_iff.mp h
  obtain ⟨ds, hcs⟩ := List.head?_eq_some_iff.mp hw
  rw [String.toList_ofList] at hcs
  have hflatten := flatten_words text.toList
  rw [hwords, List.flatten_cons, hcs] at hflatten
  unfold LeadsWithColon
  rw [← List.head?_filter, ← hflatten]
  rfl

/-- What does not lead with a colon is code. -/
theorem ofLine_eq_evaluate (h : ¬ LeadsWithColon text) : Command.ofLine text = .evaluate text := by
  unfold Command.ofLine
  split
  case h_8 => rw [if_neg fun hhead => h (leadsWithColon_of_head hhead)]
  all_goals
    rename_i hwords
    exact absurd (leadsWithColon_of_words hwords rfl) h

end

/-! ### Entries -/

section

variable {text entry pending front back : String} {cs : List Char} {fs : List Form}

/-- An entry with forms that is carried out as code. -/
structure IsCode (entry : String) (fs : List Form) : Prop where
  command : Command.ofLine entry = .evaluate entry
  forms : read entry = .ok fs

theorem isFinished_of_read (h : read text = .ok fs) : isFinished text = true := by
  unfold isFinished isUnfinished
  rw [h]
  simp

/-- A text that stops in the middle of a form goes on, unless it is a command or two line
feeds end it. -/
theorem not_isFinished_of_unclosed {t : Token} (h : read text = .error (.grammatical (.unclosed t)))
    (hcolon : ¬ LeadsWithColon text) (hforced : ¬ ['\n', '\n'] <:+ text.toList) :
    isFinished text = false := by
  have hne : text.toList.isEmpty = false := by
    rw [List.isEmpty_eq_false_iff]
    intro hnil
    obtain rfl : text = "" := String.toList_eq_nil_iff.mp hnil
    cases h.symm.trans read_empty
  have hhead : (text.toList.head? == some ':') = false := by
    rw [beq_eq_false_iff_ne]
    exact fun hhead => hcolon (leadsWithColon_of_head hhead)
  have hsuffix : ['\n', '\n'].isSuffixOf text.toList = false := by
    rw [← Bool.not_eq_true, List.isSuffixOf_iff_suffix]
    exact hforced
  unfold isFinished isUnfinished
  dsimp only
  rw [h, hne, hhead, hsuffix]
  rfl

/-- A text that stops in the middle of a form still does so behind the end of its last line. -/
theorem not_read_line_of_unclosed {t : Token} (he : IsLineEnd back)
    (h : read front = .error (.grammatical (.unclosed t))) (gs : List Form) :
    read (front ++ back) ≠ .ok gs := by
  intro hgs
  rw [← String.append_empty (s := front ++ back)] at hgs
  rcases read_cut he.isBreak hgs with ⟨gs', -, hgs', -⟩ | ⟨-, hno⟩
  · cases h.symm.trans hgs'
  · exact hno [] read_empty

/-- No two line feeds end an entry by force if no form goes on over two empty lines. -/
theorem not_forced_of_no_gap {before rest e : String} {forms : List Form}
    (htext : read (before ++ (front ++ e ++ rest)) = .ok forms)
    (hgap : ∀ f ∈ forms, ¬ HasGap (before ++ (front ++ e ++ rest)) f.range) (he : IsLineEnd e)
    (hno : ∀ gs, read rest ≠ .ok gs) : ¬ ['\n', '\n'] <:+ front.toList := by
  rintro ⟨cs, hcs⟩
  have hfeeds : front = String.ofList cs ++ "\n\n" := String.ext (by simp [← hcs])
  have hwhole : before ++ (front ++ e ++ rest) =
      before ++ String.ofList cs ++ ("\n\n" ++ e) ++ rest := by
    rw [hfeeds]
    simp only [String.append_assoc]
  rw [hwhole] at htext hgap
  obtain ⟨f, hf, hbad⟩ := exists_gap he htext hno
  exact hgap f hf hbad

/-- The lines of the rest of a text finish entries that are read as what the rest is read as. -/
theorem entriesFrom_read {before rest : String} {forms : List Form} (htext : read text = .ok forms)
    (hgap : ∀ f ∈ forms, ¬ HasGap text f.range) (hsplit : text = before ++ (pending ++ rest))
    (hcolon : ¬ LeadsWithColon pending)
    (hlines : ∀ line ∈ physicalLines rest, ¬ LeadsWithColon line)
    (hpending : pending = "" ∨ ∀ gs, read pending ≠ .ok gs)
    (hrest : read (pending ++ rest) = .ok fs) :
    pendingFrom pending (physicalLines rest) = "" ∧
      ∃ gss, List.Forall₂ IsCode (entriesFrom pending (physicalLines rest)) gss ∧
        bareAll gss.flatten = bareAll fs := by
  induction rest using text_induction generalizing before pending fs with
  | empty =>
    rcases hpending with rfl | hno
    · obtain rfl : fs = [] := (Except.ok.inj (read_empty.symm.trans hrest)).symm
      exact ⟨rfl, [], .nil, rfl⟩
    · rw [String.append_empty] at hrest
      exact absurd hrest (hno fs)
  | last line hline hne =>
    rw [physicalLines_last hline hne] at hlines ⊢
    -- the text stops behind the last line, which has no end to drop
    have hdrop : dropLineEnd (pending ++ line) = pending ++ line := by
      refine dropLineEnd_last fun hlast => hline ?_
      have hnil : line.toList ≠ [] := fun hnil => hne (String.toList_eq_nil_iff.mp hnil)
      rw [String.toList_append, List.getLast?_append_of_ne_nil _ hnil] at hlast
      exact List.mem_of_getLast? hlast
    have hfinished := isFinished_of_read hrest
    rw [entriesFrom, pendingFrom, hdrop, if_pos hfinished, if_pos hfinished]
    have hcode :=
      ofLine_eq_evaluate (not_leadsWithColon_append hcolon (hlines line List.mem_cons_self))
    exact ⟨rfl, [fs], .cons ⟨hcode, hrest⟩ .nil, by rw [List.flatten_singleton]⟩
  | line line rest hline ih =>
    rw [physicalLines_line hline] at hlines ⊢
    have hmore : ∀ l ∈ physicalLines rest, ¬ LeadsWithColon l := fun l hl =>
      hlines l (List.mem_cons_of_mem _ hl)
    have hcolon' := not_leadsWithColon_append hcolon (hlines _ List.mem_cons_self)
    have hassoc : pending ++ (line ++ "\n" ++ rest) = pending ++ (line ++ "\n") ++ rest :=
      String.append_assoc.symm
    rw [hassoc] at hsplit hrest
    have hend : (pending ++ (line ++ "\n")).toList = (pending ++ line).toList ++ ['\n'] := by simp
    obtain ⟨e, he, hdrop⟩ := dropLineEnd_line hend
    rw [entriesFrom, pendingFrom]
    generalize dropLineEnd (pending ++ (line ++ "\n")) = front at hdrop ⊢
    have hfront : ¬ LeadsWithColon front := not_leadsWithColon_front (hdrop ▸ hcolon')
    have hwhole := hrest
    rw [hdrop] at hwhole
    rcases read_cut he.isBreak hwhole with ⟨gs, hs, hgs, hhs, hbare⟩ | ⟨⟨t, ht⟩, hno⟩
    · -- the line closes all forms of the entry
      have hfinished := isFinished_of_read hgs
      have hbefore : text = before ++ (pending ++ (line ++ "\n")) ++ ("" ++ rest) := by
        rw [hsplit, String.empty_append]
        exact String.append_assoc.symm
      rw [← String.empty_append (s := rest)] at hhs
      obtain ⟨hleft, gss, hgss, hmores⟩ := ih hbefore nofun hmore (.inl rfl) hhs
      rw [if_pos hfinished, if_pos hfinished]
      refine ⟨hleft, gs :: gss, .cons ⟨ofLine_eq_evaluate hfront, hgs⟩ hgss, ?_⟩
      rw [List.flatten_cons, bareAll_append, hmores, ← bareAll_append, hbare]
    · -- the entry goes on, for it is not ended by force
      have hpieces : text = before ++ (front ++ e ++ rest) := by rw [hsplit, hdrop]
      have hforced := not_forced_of_no_gap (hpieces ▸ htext) (hpieces ▸ hgap) he hno
      have hunfinished := not_isFinished_of_unclosed ht hfront hforced
      -- what was read so far still stops in the middle of a form
      have hopen : ∀ gs, read (pending ++ (line ++ "\n")) ≠ .ok gs := by
        rw [hdrop]
        exact not_read_line_of_unclosed he ht
      rw [hunfinished, if_neg Bool.false_ne_true, if_neg Bool.false_ne_true]
      exact ih hsplit hcolon' hmore (.inr hopen) hrest

end

end ForkLisp.Shell
