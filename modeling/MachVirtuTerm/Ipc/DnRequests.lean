import MachVirtuTerm.Ipc.Table
import MachVirtuTerm.Lib.LinkedList
import MachVirtuTerm.Lib.Run
import MachVirtuTerm.Mach.KernReturn

/-!
# Dead-name requests of a port

A port keeps its dead-name requests in a table of its own. Slot 0 is the header: its
`notify` word is the head of the list of free slots and its `name` word says which size
the table has. The port is unlocked while a larger table is allocated, so growing a table
takes two sections of the port's lock.
-/

open Function List

namespace MachVirtuTerm

/-- An array of `struct ipc_table_size` for tables of requests: the sizes increase strictly
up to a last element of zero size. -/
structure IpcDnTableSizes where
  /-- `its_size` of each element. -/
  itsSize : ℕ → ℕ
  /-- The number of elements but the last. -/
  last : ℕ
  one_lt : 1 < itsSize 0
  strict : ∀ i, i + 1 < last → itsSize i < itsSize (i + 1)
  zero_of_le : ∀ i, last ≤ i → itsSize i = 0
  lt_int : ∀ i, itsSize i < 2 ^ 31

/-- `sizeof(struct ipc_port_request)`. -/
def sizeofIpcPortRequest : ℕ := 8

def ipcTableDnrequestsSize : ℕ := 64

/-- The elements of `ipc_table_dnrequests` but the last. -/
def ipcTableDnrequestsFilled : List ℕ :=
  ipcTableFill (ipcTableDnrequestsSize - 1) 2 sizeofIpcPortRequest

theorem ipcTableDnrequestsFilled_checked :
    ipcTableDnrequestsFilled.IsChain (· < ·) ∧ ipcTableDnrequestsFilled.length = 63 ∧
      1 < ipcTableDnrequestsFilled.getD 0 0 ∧ ∀ size ∈ ipcTableDnrequestsFilled, size < 2 ^ 31 := by
  decide +kernel

/-- `ipc_table_dnrequests`, as `ipc_table_init` fills it: the last element has zero size. -/
def ipcTableDnrequests : IpcDnTableSizes where
  itsSize i := ipcTableDnrequestsFilled.getD i 0
  last := ipcTableDnrequestsSize - 1
  one_lt := ipcTableDnrequestsFilled_checked.2.2.1
  strict i hi := getD_lt_of_isChain ipcTableDnrequestsFilled_checked.1
    (by rw [ipcTableDnrequestsFilled_checked.2.1]; exact hi)
  zero_of_le i hi := getD_eq_default _ _ (by rw [ipcTableDnrequestsFilled_checked.2.1]; exact hi)
  lt_int i := by
    rcases Nat.lt_or_ge i ipcTableDnrequestsFilled.length with hi | hi
    · rw [getD_eq_getElem _ _ hi]
      exact ipcTableDnrequestsFilled_checked.2.2.2 _ (getElem_mem hi)
    · rw [getD_eq_default _ _ hi]
      decide

namespace IpcDnTableSizes

variable (sizes : IpcDnTableSizes)

/-- The sizes but the last increase. -/
theorem lt_of_lt {i j : ℕ} (hij : i < j) (hj : j < sizes.last) :
    sizes.itsSize i < sizes.itsSize j := by
  induction j with
  | zero => omega
  | succ j ih =>
    have hstep := sizes.strict j hj
    rcases Nat.lt_succ_iff_lt_or_eq.mp hij with h | rfl
    · exact (ih h (by omega)).trans hstep
    · exact hstep

/-- Only sizes in front of the last are no zero. -/
theorem lt_last {i : ℕ} (hi : sizes.itsSize i ≠ 0) : i < sizes.last := by
  by_contra h
  exact hi (sizes.zero_of_le i (by omega))

/-- A table has slots besides its header. -/
theorem one_lt_of_lt {i : ℕ} (hi : i < sizes.last) : 1 < sizes.itsSize i := by
  rcases Nat.eq_zero_or_pos i with rfl | hpos
  · exact sizes.one_lt
  · exact sizes.one_lt.trans (sizes.lt_of_lt hpos hi)

end IpcDnTableSizes

/-- `struct ipc_port_request`. The `notify` word is the send-once right, or in a free slot
the next free slot. -/
structure IpcPortRequest where
  /-- `ipr_name`, null in a free slot. -/
  name : MachPort
  /-- `ipr_soright` or `ipr_next`. -/
  notify : ℕ
  deriving DecidableEq

/-- A table of requests. -/
structure DnTable where
  /-- `ipr_size` of the header: an index of the array of sizes. -/
  iprSize : ℕ
  /-- The slots; the `notify` word of slot 0 is the head of the free list. -/
  slots : ℕ → IpcPortRequest

/-- A request in a table: its slot, the name and the send-once right. -/
structure DnRequest where
  /-- The slot. -/
  index : ℕ
  /-- The name the requesting space has for the port. -/
  name : MachPort
  /-- The send-once right. -/
  soright : ℕ
  deriving DecidableEq

namespace DnTable

variable (sizes : IpcDnTableSizes) (table : DnTable)

/-- `ipr_next` of a slot. -/
def next (i : ℕ) : ℕ := (table.slots i).notify

/-- The number of slots, the header included. -/
def size : ℕ := sizes.itsSize table.iprSize

/-- The request in a slot. -/
def request (i : ℕ) : Option DnRequest :=
  if (table.slots i).name = machPortNull then none
  else some ⟨i, (table.slots i).name, (table.slots i).notify⟩

/-- The slots that the loop of `ipc_port_dnnotify` notifies, in its order. -/
def ipcPortDnnotify : List DnRequest :=
  (List.range' 1 (table.size sizes - 1)).filterMap table.request

/-- `ipc_port_dnrequest` of a table: the first free slot is taken. -/
def dnrequest (name : MachPort) (soright : ℕ) : Option (ℕ × DnTable) :=
  if table.next 0 = 0 then none
  else
    let index := table.next 0
    let slots := update table.slots 0 ⟨(table.slots 0).name, table.next index⟩
    some (index, { table with slots := update slots index ⟨name, soright⟩ })

/-- `ipc_port_dncancel` of a table: the slot is pushed onto the free list. -/
def dncancel (index : ℕ) : DnTable :=
  let slots := update table.slots index ⟨machPortNull, table.next 0⟩
  { table with slots := update slots 0 ⟨(table.slots 0).name, index⟩ }

end DnTable

/-- The loop of `ipc_port_dngrow` that pushes `n` new slots, `i` the first of them, onto the
free list. -/
def dngrowFree : ℕ → ℕ → ℕ → (ℕ → IpcPortRequest) → ℕ × (ℕ → IpcPortRequest)
  | 0, _, free, slots => (free, slots)
  | n + 1, i, free, slots => dngrowFree n (i + 1) i (update slots i ⟨machPortNull, free⟩)

/-- The table `ipc_port_dngrow` builds from the one the port has. -/
def dngrowTable (sizes : IpcDnTableSizes) (its : ℕ) (otable : Option DnTable) : DnTable :=
  let osize := otable.elim 1 fun table => table.size sizes
  let free := otable.elim 0 fun table => table.next 0
  let copied := otable.elim (fun _ => ⟨machPortNull, 0⟩) fun table => table.slots
  let grown := dngrowFree (sizes.itsSize its - osize) osize free copied
  ⟨its, update grown.2 0 ⟨machPortNull, grown.1⟩⟩

def itsSizeNone : BitVec 32 := -1

/-- The size `ipc_port_dngrow` starts its search from. -/
def dngrowFirst (otable : Option DnTable) : ℕ := otable.elim 0 fun table => table.iprSize + 1

/-- The search of `ipc_port_dngrow`: the first size from `its` on that is zero or no less
than the target. -/
def dngrowSearch (sizes : IpcDnTableSizes) (target : ℕ) : ℕ → ℕ → ℕ
  | 0, its => its
  | fuel + 1, its =>
    if sizes.itsSize its ≠ 0 ∧ sizes.itsSize its < target then
      dngrowSearch sizes target fuel (its + 1)
    else its

/-- A call of `ipc_port_dngrow` that allocates a table, the port unlocked. -/
structure DnGrower where
  /-- `otable`: the address of the table that the port had. -/
  otable : Option ℕ
  its : ℕ
  deriving DecidableEq

/-- What a port has for dead-name requests. -/
structure DnPort where
  /-- `ip_active`. -/
  active : Bool
  /-- `ip_pdrequest`, 0 for none. -/
  pdrequest : ℕ
  /-- `ip_dnrequests`: the address of the table, and the table. -/
  dnrequests : Option (ℕ × DnTable)
  /-- A call of `ipc_port_destroy` has the port unlocked to look for a circularity. -/
  destroying : Bool
  /-- The table that `ipc_port_destroy` took from the port and has yet to notify. -/
  taken : Option DnTable
  /-- The calls of `ipc_port_dngrow`, by thread, that have the port unlocked. -/
  growing : ℕ → Option DnGrower

/-- The sections of the routines. -/
inductive DnAction
  /-- `ipc_port_dnrequest`. -/
  | dnrequest (name : MachPort) (soright : ℕ)
  /-- `ipc_port_dncancel`. -/
  | dncancel (name : MachPort) (index : ℕ)
  /-- `ipc_port_dngrow` up to where it unlocks the port. -/
  | dngrow (thread : ℕ) (targetSize : BitVec 32)
  /-- `ipc_port_dngrow` from the allocation on, with the address of the new table. -/
  | dngrowResume (thread : ℕ) (ntable : Option ℕ)
  /-- `ipc_port_pdrequest`. -/
  | pdrequest (notify : ℕ)
  /-- `ipc_port_destroy` up to the search for a circularity. -/
  | destroy
  /-- `ipc_port_destroy` after the search. -/
  | destroyResume (circular : Bool)
  /-- `ipc_port_dnnotify`. -/
  | dnnotify

/-- What a section ends with. -/
inductive DnOutput
  /-- The routine returned a code. -/
  | returned (kr : KernReturn)
  /-- The routine goes on. -/
  | unlocked
  /-- `ipc_port_dngrow` put a new table in place and returned `KERN_SUCCESS`. -/
  | grown
  /-- `ipc_port_dnrequest` returned `KERN_SUCCESS` with an index. -/
  | registered (index : ℕ)
  /-- `ipc_port_dncancel` returned a send-once right. -/
  | cancelled (soright : ℕ)
  /-- `ipc_port_pdrequest` returned the previous request. -/
  | previous (notify : ℕ)
  /-- The port is dead. -/
  | died
  /-- Dead-name notifications were sent. -/
  | notified (requests : List DnRequest)
  deriving DecidableEq

/-- What the callers of the routines see to. -/
def DnAction.Allowed : DnAction → Prop
  | .dnrequest name soright => name ≠ machPortNull ∧ soright ≠ 0
  | .dncancel name index => name ≠ machPortNull ∧ index ≠ 0
  | _ => True

namespace DnPort

variable (sizes : IpcDnTableSizes) (port : DnPort)

/-- The port's table. -/
def table : Option DnTable := port.dnrequests.map Prod.snd

def ipcPortDnrequest (name : MachPort) (soright : ℕ) : DnPort × DnOutput :=
  match port.dnrequests with
  | none => (port, .returned .noSpace)
  | some (address, table) =>
    match table.dnrequest name soright with
    | none => (port, .returned .noSpace)
    | some (index, table) => ({ port with dnrequests := some (address, table) }, .registered index)

/-- `ipc_port_dncancel`; its callers see to it that the slot has a request for the name. -/
def ipcPortDncancel (name : MachPort) (index : ℕ) : Option (DnPort × DnOutput) :=
  match port.dnrequests with
  | none => none
  | some (address, table) =>
    if index < table.size sizes ∧ (table.slots index).name = name then
      some ({ port with dnrequests := some (address, table.dncancel index) },
        .cancelled (table.slots index).notify)
    else none

/-- The size `ipc_port_dngrow` is to allocate, or what it returns. The target is compared
as an unsigned number. -/
def dngrowSize (targetSize : BitVec 32) : ℕ ⊕ KernReturn :=
  if targetSize = itsSizeNone then .inl (dngrowFirst port.table)
  else if port.table.any fun table => targetSize.toNat ≤ table.size sizes then .inr .success
  else
    let its := dngrowSearch sizes targetSize.toNat sizes.last (dngrowFirst port.table)
    if sizes.itsSize its = 0 then .inr .noSpace else .inl its

/-- `ipc_port_dngrow` up to where it unlocks the port. -/
def ipcPortDngrow (thread : ℕ) (targetSize : BitVec 32) : DnPort × DnOutput :=
  match port.dngrowSize sizes targetSize with
  | .inr kr => (port, .returned kr)
  | .inl its =>
    ({ port with
        growing := update port.growing thread (some ⟨port.dnrequests.map Prod.fst, its⟩) },
      .unlocked)

/-- The check of `ipc_port_dngrow` after it locked the port again. -/
def DngrowValid (grower : DnGrower) : Prop :=
  port.active = true ∧ port.dnrequests.map Prod.fst = grower.otable ∧
    ∀ table ∈ port.table, table.iprSize + 1 = grower.its

instance (grower : DnGrower) : Decidable (port.DngrowValid grower) :=
  inferInstanceAs (Decidable (_ ∧ _ ∧ _))

/-- `ipc_port_dngrow` from the allocation on. -/
def ipcPortDngrowResume (thread : ℕ) (grower : DnGrower) (ntable : Option ℕ) : DnPort × DnOutput :=
  let port := { port with growing := update port.growing thread none }
  match ntable with
  | none => (port, .returned .resourceShortage)
  | some address =>
    if sizes.itsSize grower.its = 0 then (port, .returned .resourceShortage)
    else if port.DngrowValid grower then
      ({ port with dnrequests := some (address, dngrowTable sizes grower.its port.table) }, .grown)
    else (port, .returned .success)

/-- The port dies and its table is taken. -/
def die : DnPort × DnOutput :=
  ({ port with
      active := false
      dnrequests := none
      destroying := false
      taken := port.table },
    .died)

/-- `ipc_port_destroy` up to the search for a circularity. -/
def ipcPortDestroy : DnPort × DnOutput :=
  if port.pdrequest = 0 then port.die
  else ({ port with pdrequest := 0, destroying := true }, .unlocked)

/-- `ipc_port_destroy` after the search. -/
def ipcPortDestroyResume (circular : Bool) : DnPort × DnOutput :=
  if circular then port.die else ({ port with destroying := false }, .returned .success)

/-- A section of a routine. The port is active in those whose callers see to it. -/
def step : DnAction → Option (DnPort × DnOutput)
  | .dnrequest name soright =>
    if port.active then some (port.ipcPortDnrequest name soright) else none
  | .dncancel name index => if port.active then port.ipcPortDncancel sizes name index else none
  | .dngrow thread targetSize =>
    if port.active ∧ port.growing thread = none then
      some (port.ipcPortDngrow sizes thread targetSize)
    else none
  | .dngrowResume thread ntable =>
    (port.growing thread).map fun grower => port.ipcPortDngrowResume sizes thread grower ntable
  | .pdrequest notify =>
    if port.active then some ({ port with pdrequest := notify }, .previous port.pdrequest) else none
  | .destroy =>
    if port.active ∧ port.destroying = false then some port.ipcPortDestroy else none
  | .destroyResume circular =>
    if port.active ∧ port.destroying then some (port.ipcPortDestroyResume circular) else none
  | .dnnotify =>
    port.taken.map fun table =>
      ({ port with taken := none }, .notified (table.ipcPortDnnotify sizes))

/-- One section by a caller who keeps to the conditions. -/
def Step (s : DnPort) (l : DnAction × DnOutput) (s' : DnPort) : Prop :=
  s.step sizes l.1 = some (s', l.2) ∧ l.1.Allowed

/-- A new port. -/
def new : DnPort := ⟨true, 0, none, false, none, fun _ => none⟩

end DnPort

end MachVirtuTerm
