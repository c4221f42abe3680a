/-
A text line by line.

A conversation over a text that can be evaluated is one batch of forms after the other. It reads the
forms of the text, all of them and in their order, and comes to the values, to what is printed and
to the state that the text comes to when it is evaluated as a whole (`entries_evaluate`).
-/
import ForkLisp.Proofs.Session.Batches
import ForkLisp.Proofs.Session.Optimizing
import ForkLisp.Proofs.Shell.Entries

namespace ForkLisp.Shell

open ForkLisp.Reader ForkLisp.Session ForkLisp.Source ForkLisp.Text

/-! ### Replies -/

/-- The replies to entries in order up to the one that quits. -/
def replies (files : Files) (s : State) : List String → List (Evaluation Failure Reply)
  | [] => []
  | entry :: more =>
    let e := respond files s entry
    match e.outcome with
    | .ok .quit => [e]
    | _ => e :: replies files e.state more

section

variable {files : Files} {s : State} {entry : String}

theorem replies_quit (more : List String) (h : (respond files s entry).outcome = .ok .quit) :
    replies files s (entry :: more) = [respond files s entry] ∧
      respondAll files s (entry :: more) =
        ⟨(respond files s entry).state, (respond files s entry).log,
          shown (respond files s entry), .ok ()⟩ := by
  rw [replies, respondAll]
  simp only [h, and_self]

/-- A conversation that does not quit goes on. -/
theorem replies_cons (more : List String) (h : (respond files s entry).outcome ≠ .ok .quit) :
    replies files s (entry :: more) =
        respond files s entry :: replies files (respond files s entry).state more ∧
      respondAll files s (entry :: more) =
        (respondAll files (respond files s entry).state more).after (respond files s entry).log
          (shown (respond files s entry)) := by
  rw [replies, respondAll]
  constructor
  · split
    · exact absurd ‹_› h
    · rfl
  · split
    · exact absurd ‹_› h
    · rfl

end

/-- A conversation shows its replies, and logs what they do. -/
theorem respondAll_replies (files : Files) (s : State) (es : List String) :
    (respondAll files s es).printed = (replies files s es).flatMap shown ∧
      (respondAll files s es).log = (replies files s es).flatMap (·.log) := by
  induction es generalizing s with
  | nil => exact ⟨rfl, rfl⟩
  | cons entry more ih =>
    by_cases hquit : (respond files s entry).outcome = .ok .quit
    · obtain ⟨hreplies, hall⟩ := replies_quit more hquit
      rw [hreplies, hall, List.flatMap_singleton, List.flatMap_singleton]
      exact ⟨rfl, rfl⟩
    · obtain ⟨hreplies, hall⟩ := replies_cons more hquit
      obtain ⟨hprinted, hlog⟩ := ih (respond files s entry).state
      rw [hreplies, hall, List.flatMap_cons, List.flatMap_cons, ← hprinted, ← hlog]
      exact ⟨rfl, rfl⟩

/-- A reply gives some values, or it is to an entry without forms and gives none. -/
def Gives (e : Evaluation Failure Reply) (vs : List Value) : Prop :=
  e.outcome = .ok (.values vs) ∨ e.outcome = .ok .nothing ∧ vs = []

section

variable {s : State} {text entry : String} {es : List String} {fs : List Form}
  {gss : List (List Form)} {y : Yield (List Value)}

/-- There is nothing to read in blanks. -/
theorem lexemes_blank {cs : List Char} (h : ∀ c ∈ cs, isBlank c = true) (here : Position) :
    (lexemes here cs).found = [] := by
  fun_induction lexemes here cs with
  | case1 | case6 => rfl
  | case2 here c cs _ ih => exact ih fun d hd => h d (List.mem_cons_of_mem c hd)
  | case3 here cs => exact absurd (h ';' List.mem_cons_self) (by decide)
  | case4 here c cs _ _ hparen =>
    have hblank := h c List.mem_cons_self
    simp only [Bool.or_eq_true, decide_eq_true_eq] at hparen
    rcases hparen with rfl | rfl
    · exact absurd hblank (by decide)
    · exact absurd hblank (by decide)
  | case5 here c cs _ _ _ hatom =>
    have hblank := h c List.mem_cons_self
    rw [(isAtomChar_eq.mp hatom).1] at hblank
    cases hblank

theorem eq_nil_of_blank (hblank : text.toList.all isBlank = true)
    (h : read text = .ok fs) : fs = [] := by
  obtain ⟨ts, htokens, hbuild⟩ := read_eq_ok.mp h
  obtain ⟨-, hts⟩ := tokenize_eq_ok.mp htokens
  rw [lexemes_blank (List.all_eq_true.mp hblank)] at hts
  obtain rfl := List.forall₂_nil_left_iff.mp hts
  exact (Except.ok.inj hbuild).symm

/-- An entry of code yields what its forms do. -/
theorem respond_code (files : Files) (h : IsCode entry fs)
    (hy : (s.evaluateForms fs).yield? = some y) :
    ∃ r, Gives r y.value ∧ r = ⟨y.state, y.log, y.printed, r.outcome⟩ ∧
    respond files s entry = r := by
  have hrespond : respond files s entry = evaluateText s entry := by
    unfold respond
    rw [h.command]
    rfl
  rw [hrespond]
  unfold evaluateText
  by_cases hblank : entry.toList.all isBlank = true
  · obtain rfl := eq_nil_of_blank hblank h.forms
    obtain rfl := Option.some.inj hy
    rw [if_pos hblank]
    exact ⟨_, .inr ⟨rfl, rfl⟩, rfl, rfl⟩
  · rw [if_neg hblank]
    rw [← State.evaluate_yield? h.forms] at hy
    rw [Evaluation.yield?_eq_some hy]
    exact ⟨_, .inl rfl, rfl, rfl⟩

/-- Entries of code yield what all of their forms do. -/
theorem replies_code (files : Files) (h : List.Forall₂ IsCode es gss)
    (hy : (s.evaluateForms gss.flatten).yield? = some y) :
    (∃ vss, List.Forall₂ Gives (replies files s es) vss ∧ vss.flatten = y.value) ∧
      (replies files s es).flatMap (·.printed) = y.printed ∧
      (replies files s es).flatMap (·.log) = y.log ∧ (respondAll files s es).state = y.state := by
  induction h generalizing s y with
  | nil =>
    obtain rfl := Option.some.inj hy
    exact ⟨⟨[], .nil, rfl⟩, rfl, rfl, rfl⟩
  | @cons entry gs es gss hcode _ ih =>
    rw [List.flatten_cons, State.evaluateForms_append] at hy
    obtain ⟨x, hx, hy⟩ := Option.bind_eq_some_iff.mp hy
    obtain ⟨z, hz, rfl⟩ := Option.map_eq_some_iff.mp hy
    obtain ⟨r, hgives, hr, hrespond⟩ := respond_code files hcode hx
    obtain ⟨⟨vss, hvss, hvalues⟩, hprinted, hlog, hstate⟩ := ih hz
    -- the reply shows values or nothing, so that the conversation goes on
    have hstay : r.outcome ≠ .ok .quit := by
      rcases hgives with hvalues | ⟨hnothing, -⟩
      · rw [hvalues]
        exact nofun
      · rw [hnothing]
        exact nofun
    obtain ⟨hreplies, hall⟩ := replies_cons es (hrespond ▸ hstay)
    rw [hreplies, hall, hrespond, List.flatMap_cons, List.flatMap_cons]
    show _ ∧ _ ∧ _ ∧ (respondAll files r.state es).state = z.state
    have hnext : r.state = x.state ∧ r.printed = x.printed ∧ r.log = x.log := by
      rw [hr]
      exact ⟨rfl, rfl, rfl⟩
    rw [hnext.1, hnext.2.1, hnext.2.2, hprinted, hlog, hstate]
    exact ⟨⟨x.value :: vss, .cons hgives hvss, by rw [List.flatten_cons, hvalues]; rfl⟩,
      rfl, rfl, rfl⟩

/-- A text that can be read and evaluated, in which no line looks like a command and no form goes on
over two empty lines, one right behind the other, can be entered line by line as well. All of its
lines are accepted, and the entries that they make are read as the forms of the text, one after the
other. The replies to these, which are all that is shown, give its values and print what it prints,
and they leave the state that it leaves. -/
theorem entries_evaluate (files : Files) {forms : List Form} {vs : List Value}
    (hread : read text = .ok forms) (heval : (s.evaluate text).outcome = .ok vs)
    (hcolon : ∀ line ∈ physicalLines text, ¬ LeadsWithColon line)
    (hgap : ∀ f ∈ forms, ¬ HasGap text f.range) :
    pendingFrom "" (physicalLines text) = "" ∧
    (∃ gss, List.Forall₂ IsCode (entries text) gss ∧ bareAll gss.flatten = bareAll forms) ∧
    (∃ vss, List.Forall₂ Gives (replies files s (entries text)) vss ∧ vss.flatten = vs) ∧
    (replies files s (entries text)).flatMap (·.printed) = (s.evaluate text).printed ∧
    (converse files s text).printed = greeting ++ (replies files s (entries text)).flatMap shown ∧
    (converse files s text).log = (s.evaluate text).log ∧
    (converse files s text).state = (s.evaluate text).state := by
  have hnone : ¬ LeadsWithColon "" := nofun
  have hrest : read ("" ++ text) = .ok forms := by rwa [String.empty_append]
  have hsplit : text = "" ++ ("" ++ text) := by rw [String.empty_append, String.empty_append]
  -- from the front of the text, with nothing read before
  obtain ⟨hpending, gss, hcode, hbare⟩ :=
    entriesFrom_read hread hgap hsplit hnone hcolon (.inl rfl) hrest
  have hforms : (s.evaluateForms gss.flatten).yield? =
      some ⟨(s.evaluate text).state, (s.evaluate text).log, (s.evaluate text).printed, vs⟩ := by
    rw [State.evaluateForms_congr hbare, ← State.evaluate_yield? hread]
    unfold Evaluation.yield?
    rw [heval]
  obtain ⟨hvalues, hprinted, hlog, hstate⟩ := replies_code files hcode hforms
  obtain ⟨hshown, hlogged⟩ := respondAll_replies files s (entries text)
  exact ⟨hpending, ⟨gss, hcode, hbare⟩, hvalues, hprinted, congrArg (greeting ++ ·) hshown,
    hlogged.trans hlog, hstate⟩

end

/-- A text in which an entry goes on over an empty line and another one begins behind a
form that ends. -/
def commented : String :=
  "; three forms\n(defun f (x)\n\n (+ x\n 1)) (print\r\n (f 2))\n\n(setq y 4)"

/-- The text of three forms is entered line by line. -/
theorem entries_evaluate_commented :
    pendingFrom "" (physicalLines commented) = "" ∧
    (∃ vss, List.Forall₂ Gives (replies (fun _ => .error .missing) (.new single)
      (entries commented)) vss ∧ vss.flatten = [.symbol "f", .int 3, .int 4]) ∧
    (replies (fun _ => .error .missing) (.new single) (entries commented)).flatMap (·.printed) =
      ["3"] ∧
    (converse (fun _ => .error .missing) (.new single) commented).state =
      ((State.new single).evaluate commented).state := by
  obtain ⟨forms, hread, hranges⟩ : ∃ forms, read commented = .ok forms ∧ forms.map Form.range =
      [⟨⟨2, 1⟩, ⟨5, 5⟩⟩, ⟨⟨5, 6⟩, ⟨6, 8⟩⟩, ⟨⟨8, 1⟩, ⟨8, 11⟩⟩] := ⟨_, by cbv, by cbv⟩
  have hout : ((State.new single).evaluate commented).outcome =
    .ok [.symbol "f", .int 3, .int 4] := by cbv
  have hprinted : ((State.new single).evaluate commented).printed = ["3"] := by cbv
  have hcolon : ∀ line ∈ physicalLines commented, ¬ LeadsWithColon line := by
    unfold LeadsWithColon
    decide +kernel
  have hgap : ∀ f ∈ forms, ¬ HasGap commented f.range := by
    rw [← List.forall_mem_map (P := fun r => ¬ HasGap commented r), hranges]
    decide +kernel
  obtain ⟨hpending, -, hvalues, hprinted', -, -, hstate⟩ :=
    entries_evaluate (fun _ => .error .missing) hread hout hcolon hgap
  exact ⟨hpending, hvalues, hprinted'.trans hprinted, hstate⟩

end ForkLisp.Shell
