import MachVirtuTerm.Device.NetFilter

/-!
# Runs of a packet filter

A filter is read for the values it pushes and takes, with `parse_net_filter` beside it. When
`net_do_filter` comes to a word, its `sp` is what `parse_net_filter` had there and one more for
each conditional operator that has been passed; it stays in the stack just if that leaves every
word the cells it needs.
-/

open List Option

namespace MachVirtuTerm

open NetfArg

variable {p : Packet} {s s' : FilterState} {sp sp' : ℤ} {word : FilterWord}
  {filter : List FilterWord} {stack : ℤ → BitVec 32}

/-- A place in a filter, on a packet: the words left, the `sp` of `parse_net_filter`, the
conditional operators that were passed, and the values on a stack without bounds. -/
structure FilterWalk where
  fp : List FilterWord
  sp : ℤ
  conditionals : ℕ
  values : List (BitVec 32)

namespace FilterWalk

/-- Past one more word, unless the filter is not accepted or ends there. -/
def next (p : Packet) (w : FilterWalk) : Option FilterWalk :=
  match w.fp with
  | [] => none
  | word :: fp => do
    let sp ← parseWord w.sp word
    let (arg, values) ← (netfArg word).value p fp w.values
    let values ← (netfOp word).leaves arg values
    return {
      fp := (netfArg word).rest fp
      sp
      conditionals := w.conditionals + if (netfOp word).conditional then 1 else 0
      values }

/-- Before the first word. -/
def start (filter : List FilterWord) : FilterWalk where
  fp := filter
  sp := netFilterStackDepth
  conditionals := 0
  values := [truth true]

/-- The places that a filter comes to on a packet. -/
def Reaches (p : Packet) (filter : List FilterWord) : FilterWalk → Prop :=
  Relation.ReflTransGen (fun w w' => w.next p = some w') (start filter)

/-- The conditional operators that were passed leave the word at hand the cells it needs, or the
result its cell. Unless the word of the packet that the argument names is missing, the operator
needs cells above those the argument takes. -/
def Room (p : Packet) (w : FilterWalk) : Prop :=
  match w.fp with
  | [] => w.sp + w.conditionals ≤ netFilterStackDepth
  | word :: fp => (netfArg word).InStack (w.sp + w.conditionals) ∧
    ((netfArg word).value p fp w.values ≠ none →
      (netfOp word).InStack (w.sp + w.conditionals + (netfArg word).pops))

end FilterWalk

section Checker

/-- What the checker makes of an argument: it takes what it pops and leaves one cell. -/
theorem parseArg_eq {arg : NetfArg} (hsp : sp ≤ netFilterStackDepth)
    (h : parseArg sp arg = some sp') : sp' = sp + arg.pops - 1 ∧ arg.InStack sp := by
  cases arg with
  | nopush =>
    cases h
    exact ⟨by simp [pops], hsp⟩
  | pushind | pushhdrind =>
    obtain ⟨_, heq⟩ := ite_none_left_eq_some.mp h
    cases heq
    exact ⟨by simp [pops], hsp⟩
  | pushstk index =>
    obtain ⟨hle, heq⟩ := ite_none_left_eq_some.mp h
    cases heq
    exact ⟨by simp [pops], not_lt.mp hle⟩
  | pushhdr index =>
    obtain ⟨_, heq⟩ := ite_none_left_eq_some.mp h
    cases heq
    exact ⟨by simp [pops], trivial⟩
  | pushlit | pushzero | pushword =>
    cases h
    exact ⟨by simp [pops], trivial⟩

/-- What the checker makes of an operator: it leaves one cell less than the operator does, and
the same if the operator is conditional. -/
theorem parseOp_eq {op : NetfOp} (h : parseOp sp op = some sp') :
    sp' = sp + 1 + op.moves - (if op.conditional then 1 else 0) ∧ 2 ≤ sp ∧ op ≠ .unknown ∧
      (op = .nop ∨ sp ≤ netFilterStackDepth - 2) := by
  unfold parseOp at h
  obtain ⟨hoverflow, h⟩ := ite_none_left_eq_some.mp h
  by_cases hnop : op = .nop
  · subst hnop
    cases h
    exact ⟨by simp [NetfOp.moves, NetfOp.conditional], not_lt.mp hoverflow, by simp, .inl rfl⟩
  · rw [if_neg hnop] at h
    obtain ⟨hbinary, h⟩ := ite_none_left_eq_some.mp h
    obtain ⟨hknown, h⟩ := ite_none_left_eq_some.mp h
    refine ⟨?_, not_lt.mp hoverflow, hknown, .inr (not_lt.mp hbinary)⟩
    rw [NetfOp.moves, if_neg hnop]
    split <;> grind

/-- What the checker makes of a word: what the word does to `sp`, but for the cell that a
conditional operator pops. The cells that the word accesses are in the stack, with the `sp`
of the checker. -/
theorem parseWord_eq (hsp : sp ≤ netFilterStackDepth) (h : parseWord sp word = some sp') :
    sp' = sp + (netfArg word).pops + (netfOp word).moves -
        (if (netfOp word).conditional then 1 else 0) ∧
      2 ≤ sp' ∧ sp' ≤ netFilterStackDepth ∧ 3 ≤ sp + (netfArg word).pops ∧
      netfOp word ≠ .unknown ∧ (netfArg word).InStack sp ∧
      (netfOp word).InStack (sp + (netfArg word).pops) := by
  obtain ⟨sp₁, harg, hop⟩ := bind_eq_some_iff.mp h
  obtain ⟨harg, hin⟩ := parseArg_eq hsp harg
  obtain ⟨hop, hlow, hknown, hhigh⟩ := parseOp_eq hop
  have hpops : (netfArg word).pops ≤ 1 := by
    cases netfArg word <;> simp [pops]
  have hmoves : -1 + (if netfOp word = .nop then 0 else 1) =
      (netfOp word).moves - (if (netfOp word).conditional then 1 else 0) := by
    cases netfOp word <;> simp [NetfOp.moves, NetfOp.conditional]
  have hop' : (netfOp word).InStack (sp + (netfArg word).pops) := by
    unfold NetfOp.InStack
    split
    · omega
    · rcases hhigh with hnop | hhigh
      · contradiction
      · omega
  refine ⟨by omega, ?_, ?_, by omega, hknown, hin, hop'⟩
  · split at hmoves <;> omega
  · split at hmoves
    · omega
    · rcases hhigh with hnop | hhigh
      · contradiction
      · omega

/-- An accepted filter: its next word is accepted, and so is the rest. -/
theorem parseLoop_cons (h : parseLoop (word :: filter) sp = true) :
    ∃ sp', parseWord sp word = some sp' ∧ (netfArg word).Valid filter ∧
      parseLoop ((netfArg word).rest filter) sp' = true := by
  unfold parseLoop at h
  have hvalid (hlit : netfArg word ≠ .pushlit) : (netfArg word).Valid filter := by
    cases harg : netfArg word with
    | pushlit => exact absurd harg hlit
    | pushhdr index => exact lt_of_netfArg_pushhdr harg
    | _ => trivial
  unfold rest
  split at h
  next hlit =>
    rw [if_pos hlit]
    cases filter with
    | nil => cases h
    | cons literal filter =>
      cases hword : parseWord sp word with
      | none => simp [hword] at h
      | some sp' =>
        refine ⟨sp', rfl, ?_, ?_⟩
        · rw [hlit]
          exact cons_ne_nil _ _
        · simpa [hword] using h
  next hlit =>
    rw [if_neg hlit]
    cases hword : parseWord sp word with
    | none => simp [hword] at h
    | some sp' =>
      refine ⟨sp', rfl, hvalid hlit, ?_⟩
      simpa [hword] using h

end Checker

section Turn

variable {w w' : FilterWalk}

/-- The checker accepts the words left, from where it is. -/
structure FilterWalk.Accepted (w : FilterWalk) : Prop where
  accepted : parseLoop w.fp w.sp = true
  low : 2 ≤ w.sp
  high : w.sp ≤ netFilterStackDepth

theorem FilterWalk.accepted_start (h : parseNetFilter filter = true) :
    (FilterWalk.start filter).Accepted :=
  ⟨h, by simp [FilterWalk.start, netFilterStackDepth], le_refl _⟩

/-- As long as no conditional operator was passed there is room. -/
theorem FilterWalk.Accepted.room (h : w.Accepted) (hnone : w.conditionals = 0) : w.Room p := by
  unfold FilterWalk.Room
  rw [hnone, Nat.cast_zero, add_zero]
  cases hfp : w.fp with
  | nil => exact h.high
  | cons word fp =>
    have haccepted := h.accepted
    rw [hfp] at haccepted
    obtain ⟨sp', hword, -⟩ := parseLoop_cons haccepted
    obtain ⟨-, -, -, -, -, harg, hop⟩ := parseWord_eq h.high hword
    exact ⟨harg, fun _ => hop⟩

/-- What holds whenever `net_do_filter` comes to a word of an accepted filter: its stack has the
values that the filter means, and `sp` is ahead of the checker's by the conditional operators
passed. -/
structure FilterState.Abreast (s : FilterState) (w : FilterWalk) : Prop extends w.Accepted where
  fp : s.fp = w.fp
  sp : s.sp = w.sp + w.conditionals
  cells : Cells s.stack s.sp w.values

theorem FilterState.abreast_start (h : parseNetFilter filter = true) :
    (filterStart filter stack).Abreast (.start filter) := by
  refine ⟨FilterWalk.accepted_start h, rfl, ?_, ?_, rfl⟩
  · simp [filterStart, FilterWalk.start]
  · simp [filterStart]

/-- With room for its accesses a turn returns, where the filter ends, or leaves both at the next
word. -/
theorem filterStep_room (h : s.Abreast w) (hroom : w.Room p) :
    (w.next p = none ∧ ∃ b, filterStep p s = .ok (.ret b)) ∨
      ∃ s' w', filterStep p s = .ok (.next s') ∧ w.next p = some w' ∧ s'.Abreast w' ∧
        s'.fp.length < s.fp.length := by
  obtain ⟨fp, sp, stack⟩ := s
  obtain ⟨⟨haccepted, hlow, hhigh⟩, hfp, hsp, hcells⟩ := h
  simp only at hfp hsp hcells
  subst hfp hsp
  unfold FilterWalk.Room at hroom
  unfold FilterWalk.next
  cases hfp : w.fp with
  | nil =>
    simp only [hfp] at hroom ⊢
    have hin : FilterState.InStack (w.sp + w.conditionals) := by
      constructor
      · omega
      · exact hroom
    refine .inl ⟨trivial, stack (w.sp + w.conditionals) != 0, ?_⟩
    simp only [filterStep, read_top (s := ⟨[], w.sp + w.conditionals, stack⟩) hin]
    rfl
  | cons word fp =>
    simp only [hfp] at hroom ⊢
    rw [hfp] at haccepted
    obtain ⟨harg, hop⟩ := hroom
    obtain ⟨sp', hword, hvalid, hrest⟩ := parseLoop_cons haccepted
    obtain ⟨hsp', hlow', hhigh', hpopped, hknown, -, -⟩ := parseWord_eq hhigh hword
    have hlength : ((netfArg word).rest fp).length ≤ fp.length := by
      unfold rest
      split
      · simp
      · exact le_refl _
    rcases fetchArg_inStack (p := p) (s := ⟨fp, w.sp + w.conditionals, stack⟩)
      (by simp only; omega) hcells hvalid harg with
      ⟨hmissing, hret⟩ | ⟨v, values, hvalue, hcells', hnext⟩
    · refine .inl ⟨by simp [hword, hmissing], false, ?_⟩
      simp only [filterStep, hret]
      rfl
    · rcases applyOp_inStack (s := ⟨(netfArg word).rest fp,
        w.sp + w.conditionals + (netfArg word).pops, stack⟩) (v := v) (by simp only; omega)
        hcells' hknown (hop (by simp [hvalue])) with
        ⟨hends, b, hret⟩ | ⟨s', values', hleaves, hnext', hfp', hspₛ, hcellsₛ⟩
      · refine .inl ⟨by simp [hword, hvalue, hends], b, ?_⟩
        simp only [filterStep, hnext]
        exact hret
      · refine .inr ⟨s', ⟨(netfArg word).rest fp, sp',
          w.conditionals + if (netfOp word).conditional then 1 else 0, values'⟩, ?_,
          by simp [hword, hvalue, hleaves], ⟨⟨hrest, hlow', hhigh'⟩, hfp', ?_, hcellsₛ⟩, ?_⟩
        · simp only [filterStep, hnext]
          exact hnext'
        · simp only at hspₛ ⊢
          rw [hspₛ, hsp']
          split <;> push_cast <;> omega
        · rw [hfp']
          simp only [length_cons]
          omega

/-- Without it the turn accesses a cell outside of the stack. -/
theorem filterStep_fault (h : s.Abreast w) (hroom : ¬ w.Room p) :
    ∃ fault, filterStep p s = .error fault := by
  obtain ⟨fp, sp, stack⟩ := s
  obtain ⟨⟨haccepted, hlow, hhigh⟩, hfp, hsp, hcells⟩ := h
  simp only at hfp hsp hcells
  subst hfp hsp
  unfold FilterWalk.Room at hroom
  cases hfp : w.fp with
  | nil =>
    simp only [hfp] at hroom ⊢
    refine ⟨.stack (w.sp + w.conditionals), ?_⟩
    have hout : ¬ FilterState.InStack (w.sp + w.conditionals) := fun hin => hroom hin.2
    simp only [filterStep, read_top_fault (s := ⟨[], w.sp + w.conditionals, stack⟩) hout]
    rfl
  | cons word fp =>
    simp only [hfp] at hroom ⊢
    rw [hfp] at haccepted
    obtain ⟨sp', hword, hvalid, -⟩ := parseLoop_cons haccepted
    obtain ⟨-, -, -, -, hknown, -, -⟩ := parseWord_eq hhigh hword
    unfold filterStep
    by_cases harg : (netfArg word).InStack (w.sp + w.conditionals)
    · rcases fetchArg_inStack (p := p) (s := ⟨fp, w.sp + w.conditionals, stack⟩)
        (by simp only; omega) hcells hvalid harg with
        ⟨hmissing, -⟩ | ⟨v, values, hvalue, -, hnext⟩
      · exact absurd ⟨harg, fun hfound => absurd hmissing hfound⟩ hroom
      · have hop : ¬ (netfOp word).InStack (w.sp + w.conditionals + (netfArg word).pops) :=
          fun hop => hroom ⟨harg, fun _ => hop⟩
        obtain ⟨fault, hfault⟩ := applyOp_fault (s := ⟨(netfArg word).rest fp,
          w.sp + w.conditionals + (netfArg word).pops, stack⟩) (v := v) hknown hop
        refine ⟨fault, ?_⟩
        simp only [hnext]
        exact hfault
    · obtain ⟨fault, hfault⟩ := fetchArg_fault (p := p)
        (s := ⟨fp, w.sp + w.conditionals, stack⟩) harg
      refine ⟨fault, ?_⟩
      simp only [hfault]
      rfl

end Turn

section Run

variable {w w' : FilterWalk}

/-- Enough turns end the loop without a fault just if there is room wherever the filter comes
to. -/
theorem filterLoop_ok_iff {turns : ℕ} (h : s.Abreast w) (hturns : s.fp.length < turns) :
    (∃ b, filterLoop p turns s = .ok (some b)) ↔
      ∀ w', Relation.ReflTransGen (fun w w' => w.next p = some w') w w' → w'.Room p := by
  induction turns generalizing s w with
  | zero => omega
  | succ turns ih =>
    by_cases hroom : w.Room p
    · rcases filterStep_room h hroom with ⟨hnone, b, hret⟩ | ⟨s₁, w₁, hturn, hnext, h₁, hlength⟩
      · refine iff_of_true ⟨b, by simp only [filterLoop, hret]; rfl⟩ ?_
        intro w' hreach
        rcases hreach.cases_head with rfl | ⟨w₁, hnext, -⟩
        · exact hroom
        · rw [hnone] at hnext
          cases hnext
      · have hloop : filterLoop p (turns + 1) s = filterLoop p turns s₁ := by
          simp only [filterLoop, hturn]
          rfl
        rw [hloop, ih h₁ (by omega)]
        constructor
        · intro hrest w' hreach
          rcases hreach.cases_head with rfl | ⟨w₂, hnext', hreach'⟩
          · exact hroom
          · obtain rfl := Option.some.inj (hnext.symm.trans hnext')
            exact hrest w' hreach'
        · intro hall w' hreach
          exact hall w' (.head hnext hreach)
    · obtain ⟨fault, hfault⟩ := filterStep_fault h hroom
      refine iff_of_false ?_ fun hall => hroom (hall w .refl)
      rintro ⟨b, hok⟩
      simp only [filterLoop, hfault] at hok
      cases hok

end Run

/-- An accepted filter ends, and accesses nothing but stack, packet and header, just if at every
place it comes to on the packet the `sp` of `parse_net_filter`, advanced by the conditional
operators passed, leaves room for the cells that the word needs. -/
theorem netDoFilter_ok_iff (p : Packet) (filter : List FilterWord) (stack : ℤ → BitVec 32)
    (haccepted : parseNetFilter filter = true) :
    (∃ b, netDoFilter p filter stack = .ok (some b)) ↔
      ∀ w, FilterWalk.Reaches p filter w → w.Room p :=
  filterLoop_ok_iff (FilterState.abreast_start haccepted) (Nat.lt_succ_self _)

/-- Zero is pushed, and twice compared with five: `parse_net_filter` takes the stack to be as
deep as before. -/
def twiceCompared : List FilterWord := [0x0002, 0x2401, 5, 0x2401, 5]

/-- The second comparison pops the last cell of the stack, the result is read past its end. -/
theorem twiceCompared_fault :
    netDoFilter ⟨fun _ => 0, 0, fun _ => 0⟩ twiceCompared (fun _ => 0) = .error (.stack 33) := rfl

/-- Accepted filters can leave their stack. -/
theorem accepted_filter_leaves_stack :
    ¬ ∀ (p : Packet) (filter : List FilterWord) (stack : ℤ → BitVec 32),
      filter.length ≤ netMaxFilter → parseNetFilter filter = true →
        ∃ b, netDoFilter p filter stack = .ok (some b) := by
  intro hclaim
  obtain ⟨b, hok⟩ := hclaim ⟨fun _ => 0, 0, fun _ => 0⟩ twiceCompared (fun _ => 0)
    (by decide) (by decide +kernel)
  rw [twiceCompared_fault] at hok
  cases hok

/-- Both words of the packet are compared with eight. -/
def bothCompared : List FilterWord := [0x0010, 0x2801, 8, 0x0011, 0x2801, 8]

/-- On a packet of two words the filter passes both conditional operators, and ends. -/
theorem bothCompared_ok :
    (∃ b, netDoFilter ⟨fun _ => 8, 4, fun _ => 0⟩ bothCompared (fun _ => 0) = .ok (some b)) ∧
      ∀ w, FilterWalk.Reaches ⟨fun _ => 8, 4, fun _ => 0⟩ bothCompared w →
        w.Room ⟨fun _ => 8, 4, fun _ => 0⟩ := by
  have hok : ∃ b, netDoFilter ⟨fun _ => 8, 4, fun _ => 0⟩ bothCompared (fun _ => 0) =
      .ok (some b) := ⟨true, rfl⟩
  exact ⟨hok, (netDoFilter_ok_iff _ _ _ (by decide +kernel)).mp hok⟩

end MachVirtuTerm
