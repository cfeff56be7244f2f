import RegIR.Proofs.Build.Command

/-!
# String constants across sessions

A module may be built in several sessions. It is handed over, with storage assigned to its registers
or not, and building goes on with it. The counter that labels string constants does not survive
this: it starts again from the number of strings in the module, whatever their labels are. Strings
that are added under a label of one's own are counted too, so the counter is never behind, and a
label is never given twice as long as nobody else uses labels of that form.

## Main results

* `Labelled.run`: one act keeps the account of strings.
* `Act.runAll_induction`: from acts to sessions.
* `strings_labelled_apart`: labels are distinct over all sessions, and lead to their texts.
-/

namespace RegIR

/-! ### Sessions -/

/-- An act of building a module: a command of a session, or the end of a session and the start of
the next with the same module. Storage may be assigned to its registers in between. -/
inductive Act where
  | command (c : Command)
  | handOver (lower : Bool)
deriving DecidableEq, Repr

namespace Act

/-- Carry out an act: what it answers, and the builder that goes on. -/
def run (b : Builder) : Act → Outcome LowerError (Answer × Builder)
  | command c => liftM (c.run.run b)
  | handOver false => return (.done, .ofModule b.module)
  | handOver true => do
      let m ← b.module.lower
      return (.done, .ofModule m)

/-- Carry out acts one after the other, and note the answers. -/
def runAll (b : Builder) : List Act → Outcome LowerError (List (Act × Answer) × Builder)
  | [] => return ([], b)
  | act :: acts => do
      let (a, b) ← act.run b
      let (log, b) ← runAll b acts
      return ((act, a) :: log, b)

/-- The string constant that is made, if an act makes one. -/
def created? : Act × Answer → Option StringConst
  | (command (.string _), .value (.string s)) => some s
  | _ => none

/-- The string constants that have been made, in order. -/
def created (log : List (Act × Answer)) : List StringConst :=
  log.filterMap created?

end Act

/-- Is a label one of those that are given out, `STR` and decimal digits? -/
def isStringLabel (name : String) : Bool :=
  match name.toList with
  | 'S' :: 'T' :: 'R' :: digits => !digits.isEmpty && digits.all Char.isDigit
  | _ => false

/-! ### Labels -/

/-- What is given out is of that form. -/
theorem isStringLabel_repr (n : Nat) : isStringLabel ("STR" ++ n.repr) = true := by
  have hchars : ("STR" ++ n.repr).toList = 'S' :: 'T' :: 'R' :: Nat.toDigits 10 n := by
    rw [String.toList_append, Nat.toList_repr]
    rfl
  have hdigits : ∀ d ∈ Nat.toDigits 10 n, d.isDigit = true := fun d hd =>
    Nat.isDigit_of_mem_toDigits (by decide) (by decide) hd
  rw [isStringLabel, hchars]
  simpa [Nat.toDigits_ne_nil] using hdigits

/-- Different numbers make different labels. -/
theorem eq_of_stringLabel {m n : Nat} (h : "STR" ++ m.repr = "STR" ++ n.repr) : m = n := by
  have hdigits : Nat.toDigits 10 m = Nat.toDigits 10 n := by
    rw [← Nat.toList_repr, ← Nat.toList_repr, (String.append_right_inj _).mp h]
  calc m = Nat.ofDigitChars 10 (Nat.toDigits 10 m) 0 := Nat.ofDigitChars_ten_toDigits.symm
    _ = Nat.ofDigitChars 10 (Nat.toDigits 10 n) 0 := by rw [hdigits]
    _ = n := Nat.ofDigitChars_ten_toDigits

/-! ### What an act does to strings -/

namespace Builder

variable {b b' : Builder} {c : Command} {a : Answer}

/-- A step adds a string under a label of one's own, or one under the next label, or none. -/
theorem Step.strings (h : b.Step c a b') :
    (∃ s, c = .addString s ∧ a = .done ∧ b'.module.strings = b.module.strings ++ [s] ∧
      b'.nextString = b.nextString) ∨
    (∃ value s, c = .string value ∧ a = .value (.string s) ∧
      s.name = "STR" ++ b.nextString.toNat.repr ∧ s.value = Literal.escape value ∧
      b'.module.strings = b.module.strings ++ [s] ∧
      b'.nextString.toNat = b.nextString.toNat + 1) ∨
    ((∀ value, c ≠ .string value) ∧ b'.module.strings = b.module.strings ∧
      b'.nextString = b.nextString) := by
  cases h with
  | addString => exact .inl ⟨_, rfl, rfl, rfl, rfl⟩
  | string hs hnext =>
      subst hs
      exact .inr (.inl ⟨_, _, rfl, rfl, rfl, rfl, rfl, hnext⟩)
  | fold hv =>
      refine .inr (.inr ⟨?_, rfl, rfl⟩)
      rintro value rfl
      cases hv
  | define _ hi =>
      refine .inr (.inr ⟨?_, rfl, rfl⟩)
      rintro value rfl
      cases hi
  | perform hi =>
      refine .inr (.inr ⟨?_, rfl, rfl⟩)
      rintro value rfl
      cases hi
  | _ => exact .inr (.inr ⟨nofun, rfl, rfl⟩)

end Builder

namespace Act

variable {b b' : Builder} {act : Act} {acts : List Act} {a : Answer} {log : List (Act × Answer)}

/-- An act is a step, or it starts again with a module that has the same strings. -/
theorem run_eq_ok (h : act.run b = .ok (a, b')) :
    (∃ c, act = .command c ∧ b.Step c a b') ∨
    ∃ lower m, act = .handOver lower ∧ b' = .ofModule m ∧ m.strings = b.module.strings := by
  rcases act with c | lower
  · exact .inl ⟨c, rfl, Command.step_of_run (liftM_eq_ok_iff.mp h)⟩
  · rcases lower with - | -
    · cases h
      exact .inr ⟨false, b.module, rfl, rfl, rfl⟩
    · obtain ⟨m, hm, hdone⟩ := bind_eq_ok_iff.mp h
      cases hdone
      obtain ⟨-, functions, rfl, -⟩ := Module.lower_eq_ok_iff.mp hm
      exact .inr ⟨true, _, rfl, rfl, rfl⟩

/-- The first act, then the others. -/
theorem runAll_cons_eq_ok (h : runAll b (act :: acts) = .ok (log, b')) :
    ∃ a b₁ rest, act.run b = .ok (a, b₁) ∧ runAll b₁ acts = .ok (rest, b') ∧
      log = (act, a) :: rest := by
  obtain ⟨⟨a, b₁⟩, hact, hrest⟩ := bind_eq_ok_iff.mp h
  obtain ⟨⟨rest, b₂⟩, hacts, hpure⟩ := bind_eq_ok_iff.mp hrest
  cases hpure
  exact ⟨a, b₁, rest, hact, hacts, rfl⟩

/-- **Sessions.** What holds at the start, and is preserved by every act, holds at the end. It may
speak about what has been noted so far. -/
theorem runAll_induction {P : List (Act × Answer) → Builder → Prop}
    (h : runAll b acts = .ok (log, b')) (hstart : P [] b)
    (hstep : ∀ act ∈ acts, ∀ {log a b b'}, act.run b = .ok (a, b') → P log b →
      P (log ++ [(act, a)]) b') : P log b' := by
  induction acts generalizing P b log with
  | nil =>
      cases h
      exact hstart
  | cons act acts ih =>
      obtain ⟨a, b₁, rest, hact, hacts, rfl⟩ := runAll_cons_eq_ok h
      refine ih (P := fun log => P ((act, a) :: log)) hacts ?_ ?_
      · exact hstep act List.mem_cons_self hact hstart
      · intro act' hact' log' a' b₂ b₃ h₂
        exact hstep act' (List.mem_cons_of_mem act hact') h₂

/-- Only a string constant that is asked for is made. -/
theorem created?_eq_none (h : ∀ value, act ≠ .command (.string value)) :
    created? (act, a) = none := by
  unfold created?
  split
  next value s heq =>
    cases heq
    exact absurd rfl (h value)
  next => rfl

/-- Every act is noted. -/
theorem map_fst_of_runAll (h : runAll b acts = .ok (log, b')) : log.map Prod.fst = acts := by
  induction acts generalizing b log with
  | nil =>
      cases h
      rfl
  | cons act acts ih =>
      obtain ⟨a, b₁, rest, -, hacts, rfl⟩ := runAll_cons_eq_ok h
      rw [List.map_cons, ih hacts]

end Act

/-! ### The account of strings -/

open Act

/-- `Labelled log b`: what is known of the strings of a module from what has been noted. -/
structure Labelled (log : List (Act × Answer)) (b : Builder) : Prop where
  /-- The counter is not ahead of the strings, so counting them does not put it back. -/
  counter : b.nextString.toNat ≤ b.module.strings.length
  /-- Labels have been given out in order, below the counter. -/
  below : ∀ s ∈ created log, ∃ n < b.nextString.toNat, s.name = "STR" ++ n.repr
  apart : ((created log).map StringConst.name).Nodup
  kept : created log ⊆ b.module.strings
  /-- Nobody else has used such labels. -/
  others : ∀ s ∈ b.module.strings, s ∈ created log ∨ isStringLabel s.name = false
  /-- What has been answered for a text is a constant of that text. -/
  texts : ∀ value a, (.command (.string value), a) ∈ log →
    ∃ s ∈ created log, a = .value (.string s) ∧ s.value = Literal.escape value

namespace Labelled

variable {b b' : Builder} {log : List (Act × Answer)} {act : Act} {a : Answer}

theorem start (name : String) : Labelled [] (.new name) := by
  constructor <;> simp [created, Builder.new, Builder.ofModule]

/-- An act that makes no string constant is only noted. -/
theorem note (h : Labelled log b) (hact : ∀ value, act ≠ .command (.string value))
    (hcounter : b'.nextString.toNat ≤ b'.module.strings.length)
    (hnext : b.nextString.toNat ≤ b'.nextString.toNat)
    (hkept : b.module.strings ⊆ b'.module.strings)
    (hothers : ∀ s ∈ b'.module.strings, s ∈ b.module.strings ∨ isStringLabel s.name = false) :
    Labelled (log ++ [(act, a)]) b' := by
  have hsame : created (log ++ [(act, a)]) = created log := by
    rw [created, List.filterMap_append, List.filterMap_cons_none (created?_eq_none hact),
      List.filterMap_nil, List.append_nil, created]
  refine ⟨hcounter, ?_, hsame ▸ h.apart, hsame ▸ List.Subset.trans h.kept hkept, ?_, ?_⟩
  · intro s hs
    obtain ⟨n, hn, hname⟩ := h.below s (hsame ▸ hs)
    exact ⟨n, by omega, hname⟩
  · intro s hs
    rw [hsame]
    rcases hothers s hs with hold | hother
    · exact h.others s hold
    · exact .inr hother
  · intro value a' hmem
    rw [hsame]
    rcases List.mem_append.mp hmem with hold | hnew
    · exact h.texts value a' hold
    · cases List.mem_singleton.mp hnew
      exact absurd rfl (hact value)

/-- A new string constant gets a label that has not been given out. -/
theorem create {value : String} {s : StringConst} (h : Labelled log b)
    (hname : s.name = "STR" ++ b.nextString.toNat.repr) (hvalue : s.value = Literal.escape value)
    (hstrings : b'.module.strings = b.module.strings ++ [s])
    (hnext : b'.nextString.toNat = b.nextString.toNat + 1) :
    Labelled (log ++ [(.command (.string value), .value (.string s))]) b' := by
  have hmore : created (log ++ [(.command (.string value), .value (.string s))]) =
      created log ++ [s] := by
    rw [created, List.filterMap_append]
    rfl
  have hcounter := h.counter
  refine ⟨?_, ?_, ?_, ?_, ?_, ?_⟩
  · rw [hstrings, List.length_append, List.length_singleton]
    omega
  · rw [hmore, List.forall_mem_append, List.forall_mem_singleton]
    refine ⟨fun t ht => ?_, b.nextString.toNat, by omega, hname⟩
    obtain ⟨n, hn, htname⟩ := h.below t ht
    exact ⟨n, by omega, htname⟩
  · rw [hmore, List.map_append, List.nodup_append]
    refine ⟨h.apart, List.nodup_singleton _, ?_⟩
    rintro _ hmem _ hnew heq
    obtain ⟨t, ht, rfl⟩ := List.mem_map.mp hmem
    obtain ⟨n, hn, htname⟩ := h.below t ht
    rw [List.map_singleton, List.mem_singleton] at hnew
    have hsame : n = b.nextString.toNat := by
      apply eq_of_stringLabel
      rw [← htname, heq, hnew, hname]
    omega
  · rw [hmore, hstrings]
    intro t ht
    rcases List.mem_append.mp ht with hold | hnew
    · exact List.mem_append_left _ (h.kept hold)
    · exact List.mem_append_right _ hnew
  · rw [hmore, hstrings, List.forall_mem_append, List.forall_mem_singleton]
    refine ⟨fun t ht => ?_, .inl (by simp)⟩
    rcases h.others t ht with hold | hother
    · exact .inl (List.mem_append_left _ hold)
    · exact .inr hother
  · rw [hmore]
    intro text a' hmem
    rcases List.mem_append.mp hmem with hold | hnew
    · obtain ⟨t, ht, hanswer, htext⟩ := h.texts text a' hold
      exact ⟨t, List.mem_append_left _ ht, hanswer, htext⟩
    · cases List.mem_singleton.mp hnew
      exact ⟨s, by simp, rfl, hvalue⟩

/-- **One act** keeps the account, as long as strings can be counted in a word. -/
theorem run (h : Labelled log b) (hrun : act.run b = .ok (a, b'))
    (hnames : ∀ s, act = .command (.addString s) → isStringLabel s.name = false)
    (hsize : b'.module.strings.length < UInt32.size) : Labelled (log ++ [(act, a)]) b' := by
  have hcounter := h.counter
  rcases Act.run_eq_ok hrun with ⟨c, rfl, hstep⟩ | ⟨lower, m, rfl, rfl, hm⟩
  · rcases hstep.strings with ⟨s, rfl, rfl, hstrings, hnext⟩ |
      ⟨value, s, rfl, rfl, hname, hvalue, hstrings, hnext⟩ | ⟨hother, hstrings, hnext⟩
    · have hlength := congrArg List.length hstrings
      rw [List.length_append, List.length_singleton] at hlength
      refine h.note nofun ?_ (Nat.le_of_eq (congrArg _ hnext.symm)) ?_ ?_
      · rw [hnext]
        omega
      · rw [hstrings]
        exact List.subset_append_left _ _
      · rw [hstrings, List.forall_mem_append, List.forall_mem_singleton]
        exact ⟨fun t ht => .inl ht, .inr (hnames s rfl)⟩
    · exact h.create hname hvalue hstrings hnext
    · refine h.note ?_ ?_ (Nat.le_of_eq (congrArg _ hnext.symm)) ?_ ?_
      · rintro value ⟨⟩
        exact hother value rfl
      · rwa [hnext, hstrings]
      · rw [hstrings]
        exact List.Subset.refl _
      · rw [hstrings]
        exact fun t ht => .inl ht
  · -- The counter starts again from the number of strings, which it had not passed.
    have hexact : (Builder.ofModule m).nextString.toNat = m.strings.length :=
      UInt32.toNat_ofNat_of_lt' hsize
    have hsame : (Builder.ofModule m).module.strings = b.module.strings := hm
    refine h.note nofun (Nat.le_of_eq hexact) ?_ ?_ ?_
    · rw [hexact, hm]
      exact hcounter
    · rw [hsame]
      exact List.Subset.refl _
    · rw [hsame]
      exact fun t ht => .inl ht

/-- No string is lost. -/
theorem length_le_of_run (hrun : act.run b = .ok (a, b')) :
    b.module.strings.length ≤ b'.module.strings.length := by
  rcases Act.run_eq_ok hrun with ⟨c, rfl, hstep⟩ | ⟨lower, m, rfl, rfl, hm⟩
  · rcases hstep.strings with ⟨s, -, -, hstrings, -⟩ | ⟨value, s, -, -, -, -, hstrings, -⟩ |
      ⟨-, hstrings, -⟩
    · rw [hstrings, List.length_append]
      omega
    · rw [hstrings, List.length_append]
      omega
    · exact Nat.le_of_eq (congrArg List.length hstrings.symm)
  · exact Nat.le_of_eq (congrArg List.length hm.symm)

/-- **All acts** keep the account. -/
theorem runAll {name : String} {acts : List Act} (h : Act.runAll (.new name) acts = .ok (log, b))
    (hnames : ∀ s, .command (.addString s) ∈ acts → isStringLabel s.name = false)
    (hsize : b.module.strings.length < UInt32.size) : Labelled log b := by
  -- That strings can be counted at the end says that they could be all the time.
  refine Act.runAll_induction (P := fun log b => b.module.strings.length < UInt32.size →
    Labelled log b) h (fun _ => start name) ?_ hsize
  intro act hact log a b b' hrun ih hsize'
  have hle := length_le_of_run hrun
  refine (ih (by omega)).run hrun ?_ hsize'
  rintro s rfl
  exact hnames s hact

/-- A label leads to the constant that it was made for. -/
theorem string?_eq {s : StringConst} (h : Labelled log b) (hs : s ∈ created log) :
    b.module.string? s.name = some s := by
  have hlabel : isStringLabel s.name = true := by
    obtain ⟨n, -, hname⟩ := h.below s hs
    rw [hname]
    exact isStringLabel_repr n
  rcases hfind : b.module.string? s.name with - | t
  · have hnone := List.find?_eq_none.mp hfind s (h.kept hs)
    simp at hnone
  · have hname : t.name = s.name := by simpa using List.find?_some hfind
    rcases h.others t (List.mem_of_find?_eq_some hfind) with ht | hother
    · rw [List.inj_on_of_nodup_map h.apart ht hs hname]
    · rw [hname, hlabel] at hother
      cases hother

end Labelled

/-- **Labels of strings.** However many sessions a module has been built in, starting from a new
one, and whether or not storage was assigned in between: if strings of one's own have other labels,
and all strings can be counted in a word, then the string constants that were asked for have got
labels that differ from one another and from those of all other strings, and the module has under
each of these labels the text that it was asked for, escaped. -/
theorem strings_labelled_apart {name : String} {acts : List Act} {log : List (Act × Answer)}
    {b : Builder} (h : Act.runAll (.new name) acts = .ok (log, b))
    (hnames : ∀ s, .command (.addString s) ∈ acts → isStringLabel s.name = false)
    (hsize : b.module.strings.length < UInt32.size) :
    log.map Prod.fst = acts ∧
    ((created log).map StringConst.name).Nodup ∧
    (∀ s ∈ created log, ∀ t, .command (.addString t) ∈ acts → s.name ≠ t.name) ∧
    ∀ value a, (.command (.string value), a) ∈ log →
      ∃ s ∈ created log, a = .value (.string s) ∧ s.value = Literal.escape value ∧
        b.module.string? s.name = some s := by
  have hlabelled := Labelled.runAll h hnames hsize
  refine ⟨map_fst_of_runAll h, hlabelled.apart, ?_, ?_⟩
  · intro s hs t ht heq
    obtain ⟨n, -, hname⟩ := hlabelled.below s hs
    have hother := hnames t ht
    rw [← heq, hname, isStringLabel_repr] at hother
    cases hother
  · intro value a hmem
    obtain ⟨s, hs, hanswer, hvalue⟩ := hlabelled.texts value a hmem
    exact ⟨s, hs, hanswer, hvalue, hlabelled.string?_eq hs⟩

/-- Three sessions: a string of one's own is added in the first, and storage is assigned before the
last. The same text is asked for twice. -/
def threeSessions : List Act := [
  .command (.string "one"),
  .command (.addString { name := "STRING", value := "mine" }),
  .command (.string "two"),
  .handOver false,
  .command (.string "one"),
  .handOver true,
  .command (.string "a\tb")]

/-- The counter has been moved on past a label that was never given out, `STR2`, so it comes to no
harm that it is not remembered. -/
theorem threeSessions_labelled :
    ∃ log b, Act.runAll (.new "m") threeSessions = .ok (log, b) ∧
      (created log).map StringConst.name = ["STR0", "STR1", "STR3", "STR4"] ∧
      ((created log).map StringConst.name).Nodup ∧ "STRING" ∉ (created log).map StringConst.name ∧
      ∃ s, b.module.string? "STR4" = some s ∧ s.value = Literal.escape "a\tb" := by
  have hends : Ends (Act.runAll (.new "m") threeSessions)
      (fun r => r.2.module.strings.length < UInt32.size ∧
        (created r.1).map StringConst.name = ["STR0", "STR1", "STR3", "STR4"] ∧
        (.command (.string "a\tb"), .value (.string ⟨"STR4", "a\\tb"⟩)) ∈ r.1) fun _ => False := by
    decide +kernel
  obtain ⟨⟨log, b⟩, hrun, hsize, hlabels, hmem⟩ := hends.exists_ok
  have hnames : ∀ s, .command (.addString s) ∈ threeSessions → isStringLabel s.name = false := by
    intro s hs
    obtain rfl : s = { name := "STRING", value := "mine" } := by simpa [threeSessions] using hs
    decide
  obtain ⟨-, hapart, hothers, htexts⟩ := strings_labelled_apart hrun hnames hsize
  refine ⟨log, b, hrun, hlabels, hapart, ?_, ?_⟩
  · intro hmine
    obtain ⟨s, hs, hname⟩ := List.mem_map.mp hmine
    exact hothers s hs { name := "STRING", value := "mine" } (by decide) hname
  · obtain ⟨s, -, hanswer, hvalue, hfound⟩ := htexts _ _ hmem
    cases hanswer
    exact ⟨_, hfound, hvalue⟩

end RegIR
