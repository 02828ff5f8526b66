import Mathlib.Data.BitVec

/-!
# Input packet filters

A filter is a list of words, each an argument to push and an operator. `parse_net_filter`
checks the filter a user task gives, `net_do_filter` runs it on a packet.
-/

open Function

namespace MachVirtuTerm

/-- `filter_t`. -/
abbrev FilterWord := BitVec 16

def netMaxFilter : ℕ := 64

def netFilterStackDepth : ℤ := 32

/-- `NET_HDW_HDR_MAX / sizeof(unsigned short)`, the words of a header. -/
def netHdwHdrWords : ℕ := 64 / 2

/-- The arguments: `NETF_NOPUSH` and so on, with what the number says besides. -/
inductive NetfArg
  | nopush
  | pushlit
  | pushzero
  | pushind
  | pushhdrind
  /-- Any other number below `NETF_PUSHHDR`; `NETF_PUSHWORD` is still to be subtracted. -/
  | pushword (arg : ℕ)
  | pushhdr (index : ℕ)
  | pushstk (index : ℕ)
  deriving DecidableEq, Repr

/-- The operators. -/
inductive NetfOp
  | nop | eq | lt | le | gt | ge | and | or | xor | cor | cand | cnor | cnand | neq
  | lsh | rsh | add | sub
  /-- A number that names no operator. -/
  | unknown
  deriving DecidableEq, Repr

def netfArg (word : FilterWord) : NetfArg :=
  let arg := (word &&& 0x3ff).toNat
  if arg = 0 then .nopush
  else if arg = 1 then .pushlit
  else if arg = 2 then .pushzero
  else if arg = 14 then .pushind
  else if arg = 15 then .pushhdrind
  else if 992 ≤ arg then .pushstk (arg - 992)
  else if 960 ≤ arg then .pushhdr (arg - 960)
  else .pushword arg

def netfOp (word : FilterWord) : NetfOp :=
  match ((word >>> 10) &&& 0x3f).toNat with
  | 0 => .nop
  | 1 => .eq
  | 2 => .lt
  | 3 => .le
  | 4 => .gt
  | 5 => .ge
  | 6 => .and
  | 7 => .or
  | 8 => .xor
  | 9 => .cor
  | 10 => .cand
  | 11 => .cnor
  | 12 => .cnand
  | 13 => .neq
  | 14 => .lsh
  | 15 => .rsh
  | 16 => .add
  | 17 => .sub
  | _ => .unknown

/-- The operators that can end the filter. They pop what they compare. -/
def NetfOp.conditional : NetfOp → Bool
  | .cor | .cand | .cnor | .cnand => true
  | _ => false

/-- The number of a header word is one of its words. -/
theorem lt_of_netfArg_pushhdr {word : FilterWord} {index : ℕ}
    (h : netfArg word = .pushhdr index) : index < netHdwHdrWords := by
  unfold netfArg at h
  generalize (word &&& 0x3ff).toNat = arg at h
  have harg : arg < 992 ∧ index = arg - 960 := by
    grind
  unfold netHdwHdrWords
  omega

section Parse

/-- What `parse_net_filter` does for an argument other than a literal: the new `sp`. -/
def parseArg (sp : ℤ) : NetfArg → Option ℤ
  | .nopush => some sp
  | .pushzero | .pushlit => some (sp - 1)
  | .pushind | .pushhdrind => if netFilterStackDepth ≤ sp then none else some sp
  | .pushstk index => if netFilterStackDepth < index + sp then none else some (sp - 1)
  | .pushhdr index => if netHdwHdrWords ≤ index then none else some (sp - 1)
  | .pushword _ => some (sp - 1)

/-- What `parse_net_filter` does then: the test for overflow and the operator. -/
def parseOp (sp : ℤ) (op : NetfOp) : Option ℤ :=
  if sp < 2 then none
  else if op = .nop then some sp
  else if netFilterStackDepth - 2 < sp then none
  else if op = .unknown then none
  else some (sp + 1)

/-- What `parse_net_filter` does for a word: the new `sp`. -/
def parseWord (sp : ℤ) (word : FilterWord) : Option ℤ :=
  (parseArg sp (netfArg word)).bind fun sp => parseOp sp (netfOp word)

/-- The loop of `parse_net_filter`. -/
def parseLoop : List FilterWord → ℤ → Bool
  | [], _ => true
  | word :: filter, sp =>
    if netfArg word = .pushlit then
      match filter with
      | [] => false
      | _ :: filter =>
        match parseWord sp word with
        | none => false
        | some sp => parseLoop filter sp
    else
      match parseWord sp word with
      | none => false
      | some sp => parseLoop filter sp

def parseNetFilter (filter : List FilterWord) : Bool := parseLoop filter netFilterStackDepth

end Parse

/-- What `net_do_filter` may be made to access outside of what it was given. -/
inductive FilterFault
  | stack (index : ℤ)
  | data (index : ℕ)
  | header (index : ℕ)
  | filter
  deriving DecidableEq, Repr

/-- A packet: the words of data and header, and the count of the data bytes. -/
structure Packet where
  data : ℕ → BitVec 16
  dataCount : BitVec 32
  header : ℕ → BitVec 16

/-- `data_count`, once it counts words. -/
def Packet.dataWords (p : Packet) : BitVec 32 := p.dataCount / 2

/-- `data_word[index]`. -/
def Packet.dataWord (p : Packet) (index : BitVec 32) : Except FilterFault (BitVec 32) :=
  if index < p.dataWords then .ok ((p.data index.toNat).setWidth 32) else .error (.data index.toNat)

/-- `header_word[index]`. -/
def Packet.headerWord (p : Packet) (index : ℕ) : Except FilterFault (BitVec 32) :=
  if index < netHdwHdrWords then .ok ((p.header index).setWidth 32) else .error (.header index)

/-- The variables of `net_do_filter`: the words up to `filter_end`, and the stack. -/
structure FilterState where
  fp : List FilterWord
  sp : ℤ
  stack : ℤ → BitVec 32

/-- What a part of the loop comes to: a return, or something to go on with. -/
inductive FilterFlow (α : Type)
  | ret (b : Bool)
  | next (a : α)

namespace FilterState

/-- `stack[index]` exists. -/
def InStack (index : ℤ) : Prop := 0 ≤ index ∧ index ≤ netFilterStackDepth

instance (index : ℤ) : Decidable (InStack index) := inferInstanceAs (Decidable (_ ∧ _))

variable (s : FilterState)

/-- `sp[offset]`. -/
def read (offset : ℕ) : Except FilterFault (BitVec 32) :=
  if InStack (s.sp + offset) then .ok (s.stack (s.sp + offset))
  else .error (.stack (s.sp + offset))

/-- `*sp = v`. -/
def write (v : BitVec 32) : Except FilterFault FilterState :=
  if InStack s.sp then .ok { s with stack := update s.stack s.sp v }
  else .error (.stack s.sp)

/-- `*sp++`. -/
def pop : Except FilterFault (BitVec 32 × FilterState) := do
  let v ← s.read 0
  return (v, { s with sp := s.sp + 1 })

/-- `*--sp = v`. -/
def push (v : BitVec 32) : Except FilterFault FilterState :=
  write { s with sp := s.sp - 1 } v

/-- `*sp = f(*sp)`. -/
def modify (f : BitVec 32 → BitVec 32) : Except FilterFault FilterState := do
  let v ← s.read 0
  s.write (f v)

end FilterState

/-- A truth value of C. -/
def truth (b : Bool) : BitVec 32 := if b then 1 else 0

/-- The switch on the argument. -/
def fetchArg (p : Packet) (s : FilterState) :
    NetfArg → Except FilterFault (FilterFlow (BitVec 32 × FilterState))
  | .nopush => do
    let (arg, s) ← s.pop
    return .next (arg, s)
  | .pushzero => return .next (0, s)
  | .pushlit =>
    match s.fp with
    | [] => .error .filter
    | literal :: fp => return .next (literal.setWidth 32, { s with fp })
  | .pushind => do
    let (arg, s) ← s.pop
    if arg < p.dataWords then
      let arg ← p.dataWord arg
      return .next (arg, s)
    else return .ret false
  | .pushhdrind => do
    let (arg, s) ← s.pop
    if arg.toNat < netHdwHdrWords then
      let arg ← p.headerWord arg.toNat
      return .next (arg, s)
    else return .ret false
  | .pushstk index => do
    let arg ← s.read index
    return .next (arg, s)
  | .pushhdr index => do
    let arg ← p.headerWord index
    return .next (arg, s)
  | .pushword arg =>
    -- The subtraction is unsigned: the numbers below `NETF_PUSHWORD` become large.
    let arg := BitVec.ofNat 32 arg - 16
    if arg < p.dataWords then do
      let arg ← p.dataWord arg
      return .next (arg, s)
    else return .ret false

variable (s : FilterState)

/-- A conditional operator: pop and compare, and return `b` if the comparison is `equal`. -/
def conditionalOp (arg : BitVec 32) (equal b : Bool) :
    Except FilterFault (FilterFlow FilterState) := do
  let (v, s) ← s.pop
  if (v == arg) = equal then return .ret b else return .next s

/-- A binary operator: the top of the stack is replaced. -/
def binaryOp (f : BitVec 32 → BitVec 32) : Except FilterFault (FilterFlow FilterState) := do
  let s ← s.modify f
  return .next s

/-- The switch on the operator. The stack holds `int`, the argument is unsigned; shift counts
are taken as the i386 does, of their low five bits. -/
def applyOp (arg : BitVec 32) : NetfOp → Except FilterFault (FilterFlow FilterState)
  | .nop => do
    let s ← s.push arg
    return .next s
  | .and => binaryOp s (· &&& arg)
  | .or => binaryOp s (· ||| arg)
  | .xor => binaryOp s (· ^^^ arg)
  | .eq => binaryOp s fun v => truth (v == arg)
  | .neq => binaryOp s fun v => truth (v != arg)
  | .lt => binaryOp s fun v => truth (v < arg)
  | .le => binaryOp s fun v => truth (v ≤ arg)
  | .gt => binaryOp s fun v => truth (arg < v)
  | .ge => binaryOp s fun v => truth (arg ≤ v)
  | .cor => conditionalOp s arg true true
  | .cand => conditionalOp s arg false false
  | .cnor => conditionalOp s arg true false
  | .cnand => conditionalOp s arg false true
  | .lsh => binaryOp s fun v => (v <<< (arg.toNat % 32)) &&& 0xffff
  | .rsh => binaryOp s fun v => v.sshiftRight (arg.toNat % 32)
  | .add => binaryOp s fun v => (v + arg) &&& 0xffff
  | .sub => binaryOp s fun v => (v - arg) &&& 0xffff
  | .unknown => return .next s

/-- One turn of the loop, or the return after it. -/
def filterStep (p : Packet) (s : FilterState) : Except FilterFault (FilterFlow FilterState) :=
  match s.fp with
  | [] => do
    let v ← s.read 0
    return .ret (v != 0)
  | word :: fp => do
    match ← fetchArg p { s with fp } (netfArg word) with
    | .ret b => return .ret b
    | .next (arg, s) => applyOp s arg (netfOp word)

/-- At most so many turns of the loop; `none` if the filter has not ended by then. -/
def filterLoop (p : Packet) : ℕ → FilterState → Except FilterFault (Option Bool)
  | 0, _ => .ok none
  | turns + 1, s => do
    match ← filterStep p s with
    | .ret b => return some b
    | .next s => filterLoop p turns s

/-- The variables at the start. The rest of the stack is not initialized. -/
def filterStart (filter : List FilterWord) (stack : ℤ → BitVec 32) : FilterState where
  fp := filter
  sp := netFilterStackDepth
  stack := update stack netFilterStackDepth (truth true)

/-- `net_do_filter`: a turn for each word and the return are all it ever takes. -/
def netDoFilter (p : Packet) (filter : List FilterWord) (stack : ℤ → BitVec 32) :
    Except FilterFault (Option Bool) :=
  filterLoop p (filter.length + 1) (filterStart filter stack)

end MachVirtuTerm

/-!
# The stack of a packet filter

What a filter means for the values it pushes and takes, on a stack without a pointer or bounds;
what its words do to the stack of `net_do_filter`, and what `parse_net_filter` takes them to do.
The two differ in the conditional operators: these pop the value they compare and leave nothing
in its place, and `parse_net_filter` counts them as operators that do.
-/

namespace MachVirtuTerm

variable {p : Packet} {s s' : FilterState} {sp sp' : ℤ} {arg : NetfArg} {op : NetfOp}
  {word : FilterWord} {v : BitVec 32} {filter : List FilterWord} {values : List (BitVec 32)}

section Values

/-- The value of an argument, and the values it leaves; nothing if the packet or the header has
no such word. -/
def NetfArg.value (p : Packet) (fp : List FilterWord) (values : List (BitVec 32)) :
    NetfArg → Option (BitVec 32 × List (BitVec 32))
  | .nopush => some (values.headD 0, values.tail)
  | .pushzero => some (0, values)
  | .pushlit => some ((fp.headD 0).setWidth 32, values)
  | .pushind =>
    let index := values.headD 0
    if index < p.dataWords then some ((p.data index.toNat).setWidth 32, values.tail) else none
  | .pushhdrind =>
    let index := (values.headD 0).toNat
    if index < netHdwHdrWords then some ((p.header index).setWidth 32, values.tail) else none
  | .pushstk index => some (values.getD index 0, values)
  | .pushhdr index => some ((p.header index).setWidth 32, values)
  | .pushword arg =>
    let index := BitVec.ofNat 32 arg - 16
    if index < p.dataWords then some ((p.data index.toNat).setWidth 32, values) else none

/-- The result of a binary operator. -/
def NetfOp.apply (v arg : BitVec 32) : NetfOp → BitVec 32
  | .and => v &&& arg
  | .or => v ||| arg
  | .xor => v ^^^ arg
  | .eq => truth (v == arg)
  | .neq => truth (v != arg)
  | .lt => truth (v < arg)
  | .le => truth (v ≤ arg)
  | .gt => truth (arg < v)
  | .ge => truth (arg ≤ v)
  | .lsh => (v <<< (arg.toNat % 32)) &&& 0xffff
  | .rsh => v.sshiftRight (arg.toNat % 32)
  | .add => (v + arg) &&& 0xffff
  | .sub => (v - arg) &&& 0xffff
  | _ => v

/-- A conditional operator ends the filter. -/
def NetfOp.ends (equal : Bool) : NetfOp → Bool
  | .cor | .cnor => equal
  | .cand | .cnand => !equal
  | _ => false

/-- The values after an operator; nothing if it ends the filter. -/
def NetfOp.leaves (arg : BitVec 32) (values : List (BitVec 32)) (op : NetfOp) :
    Option (List (BitVec 32)) :=
  if op = .nop then some (arg :: values)
  else if op.conditional then
    if op.ends (values.headD 0 == arg) then none else some values.tail
  else some (op.apply (values.headD 0) arg :: values.tail)

/-- The values are the cells of the stack from a cell on. -/
def Cells (stack : ℤ → BitVec 32) : ℤ → List (BitVec 32) → Prop
  | sp, [] => sp = netFilterStackDepth + 1
  | sp, v :: values => stack sp = v ∧ Cells stack (sp + 1) values

variable {stack : ℤ → BitVec 32}

/-- A cell below the values. -/
theorem Cells.update (h : Cells stack sp values) {index : ℤ} (hlt : index < sp) :
    Cells (update stack index v) sp values := by
  induction values generalizing sp with
  | nil => exact h
  | cons w values ih =>
    refine ⟨?_, ih h.2 (by omega)⟩
    rw [update_of_ne (by omega)]
    exact h.1

/-- A value by its index. -/
theorem Cells.getD (h : Cells stack sp values) {index : ℕ} (hle : sp + index ≤ netFilterStackDepth) :
    values.getD index 0 = stack (sp + index) := by
  induction values generalizing sp index with
  | nil =>
    have hend : sp = netFilterStackDepth + 1 := h
    omega
  | cons w values ih =>
    cases index with
    | zero => simpa using h.1.symm
    | succ index =>
      rw [List.getD_cons_succ, ih h.2 (by push_cast at hle; omega)]
      congr 1
      push_cast
      omega

/-- The first value is the top of the stack, the others are below it. -/
theorem Cells.head (h : Cells stack sp values) (hle : sp ≤ netFilterStackDepth) :
    values.headD 0 = stack sp ∧ Cells stack (sp + 1) values.tail := by
  cases values with
  | nil =>
    have hend : sp = netFilterStackDepth + 1 := h
    omega
  | cons w values => exact ⟨h.1.symm, h.2⟩

end Values

section Argument

/-- The cells the argument is read from are in the stack, with `sp` there. -/
def NetfArg.InStack (sp : ℤ) : NetfArg → Prop
  | .nopush | .pushind | .pushhdrind => sp ≤ netFilterStackDepth
  | .pushstk index => index + sp ≤ netFilterStackDepth
  | _ => True

/-- How many cells the argument takes from the stack. -/
def NetfArg.pops : NetfArg → ℤ
  | .nopush | .pushind | .pushhdrind => 1
  | _ => 0

/-- The words left once the argument is read. -/
def NetfArg.rest (arg : NetfArg) (fp : List FilterWord) : List FilterWord :=
  if arg = .pushlit then fp.tail else fp

/-- A literal is there, and the number of a header word is one. -/
def NetfArg.Valid (fp : List FilterWord) : NetfArg → Prop
  | .pushlit => fp ≠ []
  | .pushhdr index => index < netHdwHdrWords
  | _ => True

theorem read_of_inStack {offset : ℕ} (h : FilterState.InStack (s.sp + offset)) :
    s.read offset = .ok (s.stack (s.sp + offset)) := if_pos h

theorem read_top (h : FilterState.InStack s.sp) : s.read 0 = .ok (s.stack s.sp) := by
  have hzero : FilterState.InStack (s.sp + (0 : ℕ)) := by simpa using h
  simpa using read_of_inStack hzero

theorem read_top_fault (h : ¬ FilterState.InStack s.sp) : s.read 0 = .error (.stack s.sp) := by
  have hzero : s.sp + ((0 : ℕ) : ℤ) = s.sp := by simp
  unfold FilterState.read
  rw [hzero]
  exact if_neg h

theorem pop_of_inStack (h : FilterState.InStack s.sp) :
    s.pop = .ok (s.stack s.sp, { s with sp := s.sp + 1 }) := by
  unfold FilterState.pop
  rw [read_top h]
  rfl

theorem pop_fault (h : ¬ FilterState.InStack s.sp) : s.pop = .error (.stack s.sp) := by
  unfold FilterState.pop
  rw [read_top_fault h]
  rfl

/-- An argument that is in the stack has its value, or ends the filter if its word is missing. -/
theorem fetchArg_inStack (hsp : 0 ≤ s.sp) (hcells : Cells s.stack s.sp values)
    (hvalid : arg.Valid s.fp) (h : arg.InStack s.sp) :
    (arg.value p s.fp values = none ∧ fetchArg p s arg = .ok (.ret false)) ∨
      ∃ v values', arg.value p s.fp values = some (v, values') ∧
        Cells s.stack (s.sp + arg.pops) values' ∧ fetchArg p s arg =
          .ok (.next (v, { s with fp := arg.rest s.fp, sp := s.sp + arg.pops })) := by
  have hpop (hle : s.sp ≤ netFilterStackDepth) :
      s.pop = .ok (s.stack s.sp, { s with sp := s.sp + 1 }) := pop_of_inStack ⟨hsp, hle⟩
  have hkeep : Cells s.stack (s.sp + 0) values := by simpa using hcells
  cases arg with
  | nopush =>
    obtain ⟨hhead, htail⟩ := hcells.head h
    refine .inr ⟨s.stack s.sp, values.tail, by rw [← hhead]; rfl, htail, ?_⟩
    simp only [fetchArg, hpop h]
    rfl
  | pushzero =>
    refine .inr ⟨0, values, rfl, hkeep, ?_⟩
    simp [fetchArg, NetfArg.rest, NetfArg.pops]
    rfl
  | pushlit =>
    cases hfp : s.fp with
    | nil => exact absurd hfp hvalid
    | cons literal fp =>
      refine .inr ⟨literal.setWidth 32, values, rfl, hkeep, ?_⟩
      simp [fetchArg, NetfArg.rest, NetfArg.pops, hfp]
      rfl
  | pushind =>
    obtain ⟨hhead, htail⟩ := hcells.head h
    simp only [fetchArg, hpop h, NetfArg.value, hhead]
    by_cases hfound : s.stack s.sp < p.dataWords
    · refine .inr ⟨(p.data (s.stack s.sp).toNat).setWidth 32, values.tail, if_pos hfound, htail, ?_⟩
      simp [bind, Except.bind, hfound, Packet.dataWord, NetfArg.rest, NetfArg.pops]
      rfl
    · refine .inl ⟨if_neg hfound, ?_⟩
      simp [bind, Except.bind, hfound]
      rfl
  | pushhdrind =>
    obtain ⟨hhead, htail⟩ := hcells.head h
    simp only [fetchArg, hpop h, NetfArg.value, hhead]
    by_cases hfound : (s.stack s.sp).toNat < netHdwHdrWords
    · refine .inr ⟨(p.header (s.stack s.sp).toNat).setWidth 32, values.tail, if_pos hfound, htail,
        ?_⟩
      simp [bind, Except.bind, hfound, Packet.headerWord, NetfArg.rest, NetfArg.pops]
      rfl
    · refine .inl ⟨if_neg hfound, ?_⟩
      simp [bind, Except.bind, hfound]
      rfl
  | pushstk index =>
    have hin : FilterState.InStack (s.sp + index) := by
      constructor
      · omega
      · simp only [NetfArg.InStack] at h
        omega
    refine .inr ⟨s.stack (s.sp + index), values, ?_, hkeep, ?_⟩
    · rw [← hcells.getD hin.2]
      rfl
    · simp only [fetchArg, read_of_inStack hin]
      simp [bind, Except.bind, NetfArg.rest, NetfArg.pops]
      rfl
  | pushhdr index =>
    simp only [NetfArg.Valid] at hvalid
    refine .inr ⟨(p.header index).setWidth 32, values, rfl, hkeep, ?_⟩
    simp [fetchArg, Packet.headerWord, hvalid, bind, Except.bind, NetfArg.rest, NetfArg.pops]
    rfl
  | pushword arg =>
    by_cases hfound : BitVec.ofNat 32 arg - 16 < p.dataWords
    · refine .inr ⟨(p.data (BitVec.ofNat 32 arg - 16).toNat).setWidth 32, values, if_pos hfound,
        hkeep, ?_⟩
      simp only [fetchArg, hfound, Packet.dataWord]
      simp [bind, Except.bind, NetfArg.rest, NetfArg.pops]
      rfl
    · refine .inl ⟨if_neg hfound, ?_⟩
      simp only [fetchArg, hfound]
      rfl

/-- An argument that is not in the stack is read from outside of it. -/
theorem fetchArg_fault (h : ¬ arg.InStack s.sp) : ∃ fault, fetchArg p s arg = .error fault := by
  have hpop (hle : ¬ s.sp ≤ netFilterStackDepth) : s.pop = .error (.stack s.sp) :=
    pop_fault fun hin => hle hin.2
  cases arg with
  | nopush | pushind | pushhdrind =>
    exact ⟨.stack s.sp, by simp only [fetchArg, hpop h]; rfl⟩
  | pushstk index =>
    refine ⟨.stack (s.sp + index), ?_⟩
    have hout : ¬ FilterState.InStack (s.sp + index) := by
      intro hin
      apply h
      simp only [NetfArg.InStack]
      have hle := hin.2
      omega
    simp only [fetchArg, FilterState.read, if_neg hout]
    rfl
  | _ => exact absurd trivial h

end Argument

section Operator

/-- The cells the operator works on are in the stack, with `sp` there. -/
def NetfOp.InStack (sp : ℤ) (op : NetfOp) : Prop :=
  if op = .nop then sp - 1 ≤ netFilterStackDepth else sp ≤ netFilterStackDepth

/-- How far the operator moves `sp`. -/
def NetfOp.moves (op : NetfOp) : ℤ :=
  if op = .nop then -1 else if op.conditional then 1 else 0

/-- A conditional operator returns or pops what it compared. -/
theorem conditionalOp_inStack {equal b : Bool} (h : FilterState.InStack s.sp) :
    conditionalOp s v equal b = if (s.stack s.sp == v) = equal then .ok (.ret b)
      else .ok (.next { s with sp := s.sp + 1 }) := by
  unfold conditionalOp
  rw [pop_of_inStack h]
  split <;> simp_all [bind, Except.bind] <;> rfl

/-- A binary operator replaces the top of the stack. -/
theorem binaryOp_inStack {f : BitVec 32 → BitVec 32} (h : FilterState.InStack s.sp) :
    binaryOp s f =
      .ok (.next { s with stack := update s.stack s.sp (f (s.stack s.sp)) }) := by
  unfold binaryOp FilterState.modify
  rw [read_top h]
  simp only [bind, Except.bind, FilterState.write, if_pos h]
  rfl

theorem binaryOp_fault {f : BitVec 32 → BitVec 32} (h : ¬ FilterState.InStack s.sp) :
    ∃ fault, binaryOp s f = .error fault := by
  refine ⟨.stack s.sp, ?_⟩
  unfold binaryOp FilterState.modify
  rw [read_top_fault h]
  rfl

/-- A conditional operator ends the filter, or pops. -/
theorem applyOp_conditional (h : op.conditional = true) (hin : FilterState.InStack s.sp) :
    ∃ b, applyOp s v op = if op.ends (s.stack s.sp == v) then .ok (.ret b)
      else .ok (.next { s with sp := s.sp + 1 }) := by
  cases op with
  | cor | cnand =>
    refine ⟨true, (conditionalOp_inStack hin).trans ?_⟩
    cases s.stack s.sp == v <;> rfl
  | cand | cnor =>
    refine ⟨false, (conditionalOp_inStack hin).trans ?_⟩
    cases s.stack s.sp == v <;> rfl
  | _ => cases h

/-- Any other operator but `NETF_NOP` puts its result in place of the top of the stack. -/
theorem applyOp_binary (hnop : op ≠ .nop) (hknown : op ≠ .unknown) (h : ¬ op.conditional = true)
    (hin : FilterState.InStack s.sp) : applyOp s v op =
      .ok (.next { s with stack := update s.stack s.sp (op.apply (s.stack s.sp) v) }) := by
  cases op with
  | nop => exact absurd rfl hnop
  | unknown => exact absurd rfl hknown
  | cor | cand | cnor | cnand => exact absurd rfl h
  | _ => exact binaryOp_inStack hin

/-- An operator that is in the stack returns, if it ends the filter, or leaves its values. -/
theorem applyOp_inStack (hsp : 1 ≤ s.sp) (hcells : Cells s.stack s.sp values)
    (hknown : op ≠ .unknown) (h : op.InStack s.sp) :
    (op.leaves v values = none ∧ ∃ b, applyOp s v op = .ok (.ret b)) ∨
      ∃ s' values', op.leaves v values = some values' ∧ applyOp s v op = .ok (.next s') ∧
        s'.fp = s.fp ∧ s'.sp = s.sp + op.moves ∧ Cells s'.stack s'.sp values' := by
  by_cases hnop : op = .nop
  · subst hnop
    have hpush : FilterState.InStack (s.sp - 1) := by
      rw [NetfOp.InStack, if_pos rfl] at h
      constructor
      · omega
      · exact h
    refine .inr ⟨{ s with sp := s.sp - 1, stack := update s.stack (s.sp - 1) v }, v :: values, rfl,
      ?_, rfl, rfl, update_self .., ?_⟩
    · simp only [applyOp, FilterState.push, FilterState.write, if_pos hpush]
      rfl
    · simpa using hcells.update (v := v) (show s.sp - 1 < s.sp by omega)
  rw [NetfOp.InStack, if_neg hnop] at h
  have hin : FilterState.InStack s.sp := ⟨by omega, h⟩
  obtain ⟨hhead, htail⟩ := hcells.head h
  by_cases hcond : op.conditional = true
  · have hpops : op.moves = 1 := by rw [NetfOp.moves, if_neg hnop, if_pos hcond]
    have hvalues : op.leaves v values =
        if op.ends (s.stack s.sp == v) then none else some values.tail := by
      rw [NetfOp.leaves, if_neg hnop, if_pos hcond, hhead]
    obtain ⟨b, happly⟩ := applyOp_conditional (v := v) hcond hin
    rw [hvalues, happly]
    split
    · exact .inl ⟨rfl, b, rfl⟩
    · exact .inr ⟨_, _, rfl, rfl, rfl, by rw [hpops], htail⟩
  · have hmoves : op.moves = 0 := by rw [NetfOp.moves, if_neg hnop, if_neg hcond]
    have hvalues : op.leaves v values =
        some (op.apply (s.stack s.sp) v :: values.tail) := by
      rw [NetfOp.leaves, if_neg hnop, if_neg hcond, hhead]
    exact .inr ⟨_, _, hvalues, applyOp_binary hnop hknown hcond hin, rfl, by rw [hmoves, add_zero], update_self ..,
      htail.update (by simp)⟩

/-- An operator that is not in the stack works on cells outside of it. -/
theorem applyOp_fault (hknown : op ≠ .unknown) (h : ¬ op.InStack s.sp) :
    ∃ fault, applyOp s v op = .error fault := by
  have hout (hnop : op ≠ .nop) : ¬ FilterState.InStack s.sp := by
    rw [NetfOp.InStack, if_neg hnop] at h
    exact fun hin => h hin.2
  cases op with
  | unknown => exact absurd rfl hknown
  | nop =>
    rw [NetfOp.InStack, if_pos rfl] at h
    have hpush : ¬ FilterState.InStack (s.sp - 1) := fun hin => h hin.2
    refine ⟨.stack (s.sp - 1), ?_⟩
    simp only [applyOp, FilterState.push, FilterState.write, if_neg hpush]
    rfl
  | cor | cand | cnor | cnand =>
    refine ⟨.stack s.sp, ?_⟩
    simp only [applyOp, conditionalOp, pop_fault (hout (by simp))]
    rfl
  | _ => exact binaryOp_fault (hout (by simp))

end Operator

end MachVirtuTerm
