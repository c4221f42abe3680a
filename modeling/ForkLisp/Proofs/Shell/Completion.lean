/-
Completion of names.

What stands in front of the cursor is cut behind its last blank or parenthesis. If that takes one
byte, or if there is none, the word behind it is completed to the names that begin with its
lowercase form, each once and in order (`complete_exact`): commands for a colon at the front of the
line, otherwise whatever is bound, and the words of the language.

The start of the word is taken to be one byte behind the start of the blank. Behind a longer blank,
such as U+3000, it lies inside of a character (`complete_fails`).
-/
import ForkLisp.Proofs.Session.Optimizing
import ForkLisp.Proofs.Session.Refusal
import ForkLisp.Proofs.Text.Lowercase
import ForkLisp.Shell.Completion

namespace ForkLisp.Compile

open ForkLisp.Code ForkLisp.Reader

/-! ### Bound names -/

/-- In entries whose names increase every entry is found. -/
theorem Bindings.lookup_of_mem {α : Type} {es : List (String × α)} (h : Increasing es)
    {name : String} {a : α} (hmem : (name, a) ∈ es) : es.lookup name = some a := by
  induction es with
  | nil => exact absurd hmem List.not_mem_nil
  | cons e es ih =>
    obtain ⟨key, b⟩ := e
    obtain ⟨hlt, hes⟩ := List.pairwise_cons.mp h
    rcases List.mem_cons.mp hmem with heq | hmem
    · obtain ⟨rfl, rfl⟩ := Prod.mk.inj heq
      exact List.lookup_cons_self
    · have hne : name ≠ key := fun heq => String.lt_irrefl name (heq ▸ hlt _ hmem)
      rw [List.lookup_cons, beq_eq_false_iff_ne.mpr hne]
      exact ih hes hmem

/-- A name is bound to a function that has it. -/
def Context.Named (c : Context) : Prop :=
  ∀ name id, c.findFunction? name = some id → ∃ f, c.function? id = some f ∧ f.name = name

theorem Context.Named.compile {c : Context} (h : c.Named) (hs : c.Sorted) (f : Form) :
    (compile c f).context.Named := by
  have hnames := compile_names hs f
  have hr := compile_arises c f
  generalize ForkLisp.Compile.compile c f = r at hnames hr
  intro name id hid
  unfold Context.findFunction? at hid
  cases hr with
  | failed hsame =>
    rw [hnames] at hid
    obtain ⟨g, hg, hname⟩ := h name id hid
    exact ⟨g, by rw [← hg, Context.function?, Context.function?, hsame.functions], hname⟩
  | entry hd hg hb =>
    rw [hg.names] at hid
    obtain ⟨g, hg', hname⟩ := h name id hid
    exact ⟨g, by rw [← hg', Context.function?, Context.function?, hg.functions], hname⟩
  | @defined d own k ts log hd hg hb =>
    have hbound : (c.names.insert d.name c.functions.size).find? name = some id := by
      rw [← hid]
      exact congrArg (·.find? name) hg.names.symm
    rw [Bindings.find?_insert] at hbound
    split at hbound
    · rename_i hname
      obtain rfl := Option.some.inj hbound
      exact ⟨_, complete_self hg, hname.symm⟩
    · obtain ⟨g, hg', hname⟩ := h name id hbound
      have hlt : id < c.functions.size := (Array.getElem?_eq_some_iff.mp hg').1
      exact ⟨g, (complete_of_lt hg hlt).trans hg', hname⟩

end ForkLisp.Compile

namespace ForkLisp.Session

open ForkLisp.Compile

variable {settings : Settings} {c : Context}

theorem Context.Evolves.named (h : Context.Evolves settings c) : c.Named := by
  induction h with
  | new => exact fun name id hid => by cases hid
  | compile hc f ih => exact ih.compile hc.sorted f
  | @tabulate c _ ih =>
    unfold Context.functionTable
    split
    · exact ih
    · exact ih
  | assign _ _ ih => exact ih

/-- The functions that are listed are those that names are bound to. -/
theorem mem_boundFunctions (h : Context.Evolves settings c) {name : String} :
    name ∈ c.boundFunctions.map (·.name) ↔ (c.findFunction? name).isSome = true := by
  have hfind : ∀ e ∈ c.names.entries, c.findFunction? e.1 = some e.2 :=
    fun e he => Bindings.lookup_of_mem h.sorted he
  rw [List.mem_map, Option.isSome_iff_exists]
  constructor
  · rintro ⟨f, hf, rfl⟩
    obtain ⟨e, he, hfe⟩ := List.mem_filterMap.mp hf
    obtain ⟨g, hg, hname⟩ := h.named e.1 e.2 (hfind e he)
    obtain rfl := Option.some.inj (hfe.symm.trans hg)
    exact ⟨e.2, hname ▸ hfind e he⟩
  · rintro ⟨id, hid⟩
    obtain ⟨f, hf, hname⟩ := h.named name id hid
    obtain ⟨front, back, hentries, -⟩ := List.lookup_eq_some_iff.mp hid
    refine ⟨f, List.mem_filterMap.mpr ⟨(name, id), ?_, hf⟩, hname⟩
    rw [hentries]
    exact List.mem_append_right _ List.mem_cons_self

theorem mem_sortedGlobals {name : String} :
    name ∈ c.sortedGlobals.map (·.name) ↔ (c.findGlobal? name).isSome = true := by
  unfold Context.sortedGlobals Context.findGlobal?
  rw [Option.isSome_map, Array.findIdx?_isSome]
  simp [List.mem_mergeSort, Array.mem_iff_getElem]

end ForkLisp.Session

namespace ForkLisp.Text

/-- A lowercase form begins with a colon if the text does. -/
theorem head?_lowercaseAfter_colon (before cs : List Char) :
    (lowercaseAfter before cs).head? = some ':' ↔ cs.head? = some ':' := by
  cases cs with
  | nil => exact Iff.rfl
  | cons c cs =>
    obtain ⟨form, hne, hlowers, hascii, heq⟩ := lowercaseAfter_cons before c cs
    obtain ⟨c', form, rfl⟩ := List.exists_cons_of_ne_nil hne
    rw [heq, List.cons_append, List.head?_cons, List.head?_cons, Option.some_inj, Option.some_inj]
    rcases hlowers c' List.mem_cons_self with ⟨hc, rfl⟩ | ⟨hc, -, hform⟩
    · exact of_ascii (P := fun c => c.toLower = ':' ↔ c = ':') (by decide) hc
    · -- outside of ASCII a character stays as it is or becomes a letter
      have hcolon : ':'.toNat = 0x3A := rfl
      constructor
      · rintro rfl
        rcases hform with rfl | hletter
        · rfl
        · exact absurd hletter (by decide)
      · rintro rfl
        omega

end ForkLisp.Text

namespace ForkLisp.Shell

open ForkLisp.Compile ForkLisp.Session

/-! ### Positions in a line -/

theorem byteCount_append (cs ds : List Char) :
    byteCount (cs ++ ds) = byteCount cs + byteCount ds := by
  induction cs with
  | nil => exact (Nat.zero_add _).symm
  | cons c cs ih =>
    show c.utf8Size + byteCount (cs ++ ds) = c.utf8Size + byteCount cs + byteCount ds
    rw [ih, Nat.add_assoc]

/-- As many bytes as some characters have make up these characters. -/
theorem takeBytes?_append (cs ds : List Char) : takeBytes? (byteCount cs) (cs ++ ds) = some cs := by
  induction cs with
  | nil => exact takeBytes?.eq_1 _
  | cons c cs ih =>
    have hcount : byteCount (c :: cs) = c.utf8Size + byteCount cs := rfl
    obtain ⟨n, hn⟩ := Nat.exists_eq_add_one.mpr c.utf8Size_pos
    rw [hcount, hn, Nat.add_right_comm, List.cons_append, takeBytes?, if_pos (by omega),
      show n + byteCount cs + 1 - c.utf8Size = byteCount cs by omega, ih, Option.map_some]

/-! ### Words -/

/-- A word behind others: it has no delimiter, and starts behind one if there is
something in front. -/
structure Cuts (cs front word : List Char) : Prop where
  parts : cs = front ++ word
  free : ∀ c ∈ word, isDelimiter c = false
  last : ∀ c, front.getLast? = some c → isDelimiter c = true

theorem lastWord_cuts (cs : List Char) : Cuts cs (lastWord cs).2.reverse (lastWord cs).1 where
  parts := by
    rw [lastWord, ← List.reverse_append, List.takeWhile_append_dropWhile, List.reverse_reverse]
  free c hc := by
    have := List.mem_takeWhile_imp (List.mem_reverse.mp hc)
    simpa using this
  last c hc := by
    rw [List.getLast?_reverse] at hc
    have hnot := List.head?_dropWhile_not (!isDelimiter ·) cs.reverse
    rw [show ((cs.reverse.dropWhile (!isDelimiter ·)).head?) = some c from hc] at hnot
    simpa using hnot

/-- A word is the longest one that ends there. -/
theorem Cuts.longest {cs front word : List Char} (h : Cuts cs front word) {w : List Char}
    (hw : w <:+ cs) (hfree : ∀ c ∈ w, isDelimiter c = false) : w <:+ word := by
  rcases List.suffix_or_suffix_of_suffix hw ⟨front, h.parts.symm⟩ with hsuffix | ⟨more, hmore⟩
  · exact hsuffix
  · rcases List.eq_nil_or_concat more with rfl | ⟨more, c, rfl⟩
    · exact ⟨[], hmore.symm⟩
    · -- a longer word would hold the delimiter
      obtain ⟨before, hbefore⟩ := hw
      rw [h.parts, ← hmore, ← List.append_assoc, List.append_left_inj] at hbefore
      have hlast : front.getLast? = some c := by rw [← hbefore]; simp
      have hc : c ∈ w := by rw [← hmore]; simp
      exact absurd (h.last c hlast) (by simp [hfree c hc])

/-! ### Names -/

theorem nodup_eraseDups : ∀ names : List String, names.eraseDups.Nodup
  | [] => by simp
  | name :: names => by
    rw [List.eraseDups_cons, List.nodup_cons]
    exact ⟨by simp, nodup_eraseDups _⟩
termination_by names => names.length
decreasing_by exact Nat.lt_succ_of_le (List.length_filter_le ..)

/-- Names without repetitions are put in strictly increasing order. -/
theorem pairwise_sorted (names : List String) :
    (names.eraseDups.mergeSort (· ≤ ·)).Pairwise (· < ·) := by
  have hle : (names.eraseDups.mergeSort (· ≤ ·)).Pairwise (· ≤ ·) :=
    List.pairwise_mergeSort' (· ≤ ·) names.eraseDups
  have hne : (names.eraseDups.mergeSort (· ≤ ·)).Nodup :=
    List.nodup_mergeSort.mpr (nodup_eraseDups names)
  exact (hle.and hne).imp fun ⟨hle, hne⟩ => Std.lt_of_le_of_ne hle hne

theorem mem_startingWith {word : List Char} {names : List String} {name : String} :
    name ∈ startingWith word names ↔ name ∈ names ∧ word <+: name.toList := by
  rw [startingWith, List.mem_filter, List.isPrefixOf_iff_prefix]

/-- What the word behind `front` may be completed to: the name of a command for a colon at the front
of the line, and else a function, a global or a word of the language. -/
def Candidate (c : Context) (front word : List Char) (name : String) : Prop :=
  if front = [] ∧ word.head? = some ':' then name ∈ Command.offered.map (·.name)
  else (c.findFunction? name).isSome = true ∨ (c.findGlobal? name).isSome = true ∨ name ∈ keywords

theorem mem_namesStartingWith {s : State} (h : Context.Evolves settings s.context)
    {word : List Char} {name : String} : name ∈ namesStartingWith s word ↔ word <+: name.toList ∧
      ((s.context.findFunction? name).isSome = true ∨ (s.context.findGlobal? name).isSome = true ∨
        name ∈ keywords) := by
  unfold namesStartingWith
  rw [List.mem_mergeSort, List.mem_eraseDups, mem_startingWith, List.mem_append, List.mem_append,
    State.functions, State.globals, mem_boundFunctions h, mem_sortedGlobals, or_assoc, and_comm]

theorem pairwise_offered (word : List Char) :
    (startingWith word (Command.offered.map (·.name))).Pairwise (· < ·) := by
  have hall : (Command.offered.map (·.name)).Pairwise (· < ·) := by decide
  exact hall.filter _

/-- In every state of a session, in front of every character of a line and behind its last one: what
stands there is cut into a word, the longest one without blanks and parentheses, and what is in
front of it. There is a completion unless the character in front of the word takes more than one
byte. It starts where the word does, at a character, and has exactly the names that begin with the
lowercase form of the word, each once and in increasing order. -/
theorem complete_exact {s : State} (h : Context.Evolves settings s.context) {line : String}
    {cs rest : List Char} (hline : line.toList = cs ++ rest) :
    ∃ front word, cs = front ++ word ∧ (∀ c ∈ word, isDelimiter c = false) ∧
      (∀ w, w <:+ cs → (∀ c ∈ w, isDelimiter c = false) → w <:+ word) ∧
      ((complete? s line (byteCount cs)).isSome = true ↔
        ∀ c, front.getLast? = some c → c.utf8Size = 1) ∧
      ∀ found, complete? s line (byteCount cs) = some found →
        found.start = byteCount front ∧ found.start ≤ byteCount cs ∧
        found.names.Pairwise (· < ·) ∧
        ∀ name, name ∈ found.names ↔
          (Text.lowercase (String.ofList word)).toList <+: name.toList ∧
            Candidate s.context front word name := by
  have hcuts := lastWord_cuts cs
  have hbytes : takeBytes? (byteCount cs) line.toList = some cs := hline ▸ takeBytes?_append cs rest
  have hstart : byteCount (lastWord cs).2.reverse ≤ byteCount cs := by
    conv_rhs => rw [hcuts.parts, byteCount_append]
    exact Nat.le_add_right _ _
  have hcolon : (Text.lowercase (String.ofList (lastWord cs).1)).toList.head? = some ':' ↔
      (lastWord cs).1.head? = some ':' := by
    rw [Text.lowercase, String.toList_ofList, String.toList_ofList]
    exact Text.head?_lowercaseAfter_colon [] _
  refine ⟨(lastWord cs).2.reverse, (lastWord cs).1, hcuts.parts, hcuts.free,
    fun w => hcuts.longest, ?_⟩
  unfold complete?
  rw [hbytes, Option.bind_some]
  unfold Candidate
  generalize lastWord cs = cut at hstart hcolon ⊢
  obtain ⟨word, front⟩ := cut
  -- only with nothing in front of it the word may be a command
  cases front with
  | nil =>
    dsimp only at hstart hcolon ⊢
    by_cases hhead : word.head? = some ':'
    · rw [if_pos (hcolon.mpr hhead)]
      refine ⟨by simp, ?_⟩
      rintro found ⟨⟩
      refine ⟨rfl, Nat.zero_le _, pairwise_offered _, fun name => ?_⟩
      rw [if_pos ⟨rfl, hhead⟩, mem_startingWith, and_comm]
    · rw [if_neg (mt hcolon.mp hhead)]
      refine ⟨by simp, ?_⟩
      rintro found ⟨⟩
      refine ⟨rfl, Nat.zero_le _, pairwise_sorted _, fun name => ?_⟩
      rw [if_neg fun hboth => hhead hboth.2, mem_namesStartingWith h]
  | cons c front =>
    dsimp only at hstart hcolon ⊢
    by_cases hone : c.utf8Size = 1
    · rw [if_pos hone]
      refine ⟨by simp [hone], ?_⟩
      rintro found ⟨⟩
      refine ⟨rfl, hstart, pairwise_sorted _, fun name => ?_⟩
      rw [if_neg fun hboth => by simp at hboth, mem_namesStartingWith h]
    · rw [if_neg hone]
      refine ⟨by simp [hone], ?_⟩
      rintro found ⟨⟩

/-- A session in which a function and a global have been defined. -/
def limited : State where
  context := (compile (compile (.new {}) (formOf "(defun fib (n) n)")).context
    (formOf "(setq limit 3)")).context
  scheduler := .new {}

/-- The function is the one name for the letters behind the parenthesis. -/
theorem complete_exact_limited :
    complete? limited "(fi" 3 = some ⟨1, ["fib"]⟩ ∧
      ∃ front word, ['(', 'f', 'i'] = front ++ word ∧ byteCount front = 1 ∧
        ∀ name, name ∈ ["fib"] ↔ (Text.lowercase (String.ofList word)).toList <+: name.toList ∧
          Candidate limited.context front word name := by
  have hfound : complete? limited "(fi" 3 = some ⟨1, ["fib"]⟩ := by decide +kernel
  have hevolves : Context.Evolves {} limited.context := .compile (.compile .new _) _
  have hline : "(fi".toList = ['(', 'f', 'i'] ++ [] := rfl
  obtain ⟨front, word, hparts, -, -, -, hexact⟩ := complete_exact hevolves hline
  obtain ⟨hstart, -, -, hnames⟩ := hexact _ hfound
  exact ⟨hfound, front, word, hparts, hstart.symm, hnames⟩

/-- Behind a blank of three bytes there is no completion. -/
theorem complete_fails :
    ¬ ∀ (s : State) (line : String) (cs rest : List Char), Context.Evolves {} s.context →
      line.toList = cs ++ rest → (complete? s line (byteCount cs)).isSome = true := by
  intro h
  exact absurd (h (.new {}) "\u3000de" ['\u3000', 'd', 'e'] [] .new rfl) (by decide)

end ForkLisp.Shell
