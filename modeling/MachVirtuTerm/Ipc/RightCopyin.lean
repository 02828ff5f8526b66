import MachVirtuTerm.Ipc.DnRequests
import MachVirtuTerm.Ipc.EntryBits

/-!
# Copying rights in

`ipc_right_check`, `ipc_right_copyin` and `ipc_right_copyin_undo` on one entry of a space, with
the ports it may name and the reverse hash of the space. A failed assertion is none.
-/

namespace MachVirtuTerm

/-- A type of `MACH_MSG_TYPE_PORT_ANY_SEND`. -/
inductive AnySend
  | moveSend
  | moveSendOnce
  | copySend
  | makeSend
  | makeSendOnce
  deriving DecidableEq

/-- What the routines read and write of a `struct ipc_port`. -/
structure RightPort where
  ipActive : Bool
  /-- `ip_references`; a port without references is free. -/
  ipReferences : ℕ
  ipReceiverName : MachPort
  ipMscount : ℕ
  ipSrights : ℕ
  ipSorights : ℕ
  ipDnrequests : Option DnTable

/-- The object of a copyin: `IO_DEAD` or a port. -/
inductive CopiedObject
  | ioDead
  | port (address : ℕ)
  deriving DecidableEq

/-- The ports, by address, and the reverse hash of a space. -/
structure RightState where
  ports : ℕ → RightPort
  /-- The objects that are hashed, each with its name. -/
  hash : Finset (ℕ × MachPort)

namespace RightState

variable (sizes : IpcDnTableSizes) (s : RightState)

variable (address : ℕ)

/-- Store a port. -/
def setPort (port : RightPort) : RightState :=
  { s with ports := Function.update s.ports address port }

def ipReference : RightState :=
  s.setPort address { s.ports address with ipReferences := (s.ports address).ipReferences + 1 }

/-- `ipc_port_release` and `ipc_object_release` of a port. -/
def ipcPortRelease : RightState :=
  s.setPort address { s.ports address with ipReferences := (s.ports address).ipReferences - 1 }

def ipcHashDelete (name : MachPort) : RightState :=
  { s with hash := s.hash.erase (address, name) }

/-- A port dies: it gives up its table of requests and `released` references that were held
for its receiver and its messages. The second part is the dead-name notifications that
`ipc_port_destroy` sends, each a name and a send-once right. -/
def portDies (address released : ℕ) : RightState × List (MachPort × ℕ) :=
  let port := s.ports address
  if port.ipActive then
    (s.setPort address
      { port with
        ipActive := false
        ipReferences := port.ipReferences - released
        ipDnrequests := none },
      port.ipDnrequests.elim [] fun table =>
        (table.ipcPortDnnotify sizes).map fun r => (r.name, r.soright))
  else (s, [])

/-- The port of an entry dies, if there is one. -/
def objectDies (object : Option ℕ) (released : ℕ) : RightState × List (MachPort × ℕ) :=
  object.elim (s, []) fun port => s.portDies sizes port released

variable (port : ℕ)

/-- `ipc_right_check`: whether the port is dead. -/
def ipcRightCheck (name : MachPort) (entry : IpcEntry) : Option (Bool × RightState × IpcEntry) :=
  if entry.ieObject ≠ some port then none
  else if (s.ports port).ipActive then some (false, s, entry)
  else
    let bits := entry.ieBits
    if bits &&& machPortTypeReceive ≠ 0 ∨ ieBitsUrefs bits = 0 then none
    else if bits &&& machPortTypeSend ≠ 0 ∧ ieBitsType bits ≠ machPortTypeSend then none
    else if bits &&& machPortTypeSend = 0 ∧
        ¬(ieBitsType bits = machPortTypeSendOnce ∧ ieBitsUrefs bits = 1) then none
    else if entry.ieRequest ≠ 0 ∧ ¬ieBitsUrefs bits < machPortUrefsMax then none
    else
      let hashed := if bits &&& machPortTypeSend ≠ 0 then s.ipcHashDelete port name else s
      let dead := (bits &&& ~~~ieBitsTypeMask) ||| machPortTypeDeadName
      some (true, hashed.ipcPortRelease port,
        { entry with
          ieBits := if entry.ieRequest ≠ 0 then dead + 1 else dead
          ieObject := none
          index := 0 })

variable (name : MachPort)

variable (entry : IpcEntry)

/-- `ipc_right_check` of an entry that names a port. -/
def checkEntry : Option (RightState × IpcEntry) :=
  entry.ieObject.elim (some (s, entry)) fun port =>
    (s.ipcRightCheck port name entry).map Prod.snd

/-- `ipc_right_dncancel_macro`, for a port that is active. -/
def ipcRightDncancel (name : MachPort) (entry : IpcEntry) :
    Option (Option ℕ × RightState × IpcEntry) :=
  if entry.ieRequest = 0 then some (none, s, entry)
  else
    match (s.ports port).ipDnrequests with
    | none => none
    | some table =>
      if name ≠ machPortNull ∧ entry.ieRequest < table.size sizes ∧
          (table.slots entry.ieRequest).name = name then
        some (some (table.slots entry.ieRequest).notify,
          s.setPort port
            { s.ports port with ipDnrequests := some (table.dncancel entry.ieRequest) },
          { entry with index := 0 })
      else none

/-- The end of `ipc_right_copyin` for a dead name: label `copy_dead` for a copied right,
label `move_dead` for one that is moved. -/
def copyinDead (move deadok : Bool) (entry : IpcEntry) :
    Option (Except KernReturn (CopiedObject × Option ℕ) × RightState × IpcEntry) :=
  let bits := entry.ieBits
  if ieBitsType bits ≠ machPortTypeDeadName ∨ ieBitsUrefs bits = 0 ∨ entry.ieRequest ≠ 0 ∨
      entry.ieObject ≠ none then none
  else if !deadok then some (.error .invalidRight, s, entry)
  else if !move then some (.ok (.ioDead, none), s, entry)
  else
    some (.ok (.ioDead, none), s,
      { entry with
        ieBits := if ieBitsUrefs bits = 1 then bits &&& ~~~machPortTypeDeadName else bits - 1 })

/-- `ipc_right_copyin` for `MACH_MSG_TYPE_MAKE_SEND` and `MACH_MSG_TYPE_MAKE_SEND_ONCE`, which
make a right from the receive right. -/
def copyinMake (once : Bool) (name : MachPort) (entry : IpcEntry) :
    Option (Except KernReturn (CopiedObject × Option ℕ) × RightState × IpcEntry) :=
  if entry.ieBits &&& machPortTypeReceive = 0 then some (.error .invalidRight, s, entry)
  else
    match entry.ieObject with
    | none => none
    | some port =>
      let p := s.ports port
      if p.ipActive ∧ p.ipReceiverName = name then
        let made :=
          if once then { p with ipSorights := p.ipSorights + 1 }
          else { p with ipMscount := p.ipMscount + 1, ipSrights := p.ipSrights + 1 }
        some (.ok (.port port, none), (s.setPort port made).ipReference port, entry)
      else none

/-- The rest of `ipc_right_copyin` for `MACH_MSG_TYPE_COPY_SEND`, the port being active. -/
def copyinCopySend : Option (Except KernReturn (CopiedObject × Option ℕ) × RightState × IpcEntry) :=
  let p := s.ports port
  if entry.ieBits &&& machPortTypeSend = 0 then
    if ieBitsType entry.ieBits = machPortTypeSendOnce ∧ 0 < p.ipSorights then
      some (.error .invalidRight, s, entry)
    else none
  else if p.ipSrights = 0 then none
  else
    some (.ok (.port port, none),
      (s.setPort port { p with ipSrights := p.ipSrights + 1 }).ipReference port, entry)

/-- The rest of `ipc_right_copyin` for `MACH_MSG_TYPE_MOVE_SEND`, the port being active. -/
def copyinMoveSend (name : MachPort) (entry : IpcEntry) :
    Option (Except KernReturn (CopiedObject × Option ℕ) × RightState × IpcEntry) :=
  let p := s.ports port
  let bits := entry.ieBits
  if bits &&& machPortTypeSend = 0 then
    if ieBitsType bits = machPortTypeSendOnce ∧ 0 < p.ipSorights then
      some (.error .invalidRight, s, entry)
    else none
  else if p.ipSrights = 0 then none
  else if ieBitsUrefs bits = 1 then
    let left := bits &&& ~~~(ieBitsUrefsMask ||| machPortTypeSend)
    if bits &&& machPortTypeReceive ≠ 0 then
      if p.ipReceiverName = name ∧ ieBitsType bits = machPortTypeSendReceive then
        some (.ok (.port port, none), s.ipReference port, { entry with ieBits := left })
      else none
    else if ieBitsType bits ≠ machPortTypeSend then none
    else
      (s.ipcRightDncancel sizes port name entry).map fun (dnrequest, s, entry) =>
        (.ok (.port port, dnrequest), s.ipcHashDelete port name,
          { entry with ieBits := left, ieObject := none })
  else
    some (.ok (.port port, none),
      (s.setPort port { p with ipSrights := p.ipSrights + 1 }).ipReference port,
      { entry with ieBits := bits - 1 })

/-- The rest of `ipc_right_copyin` for `MACH_MSG_TYPE_MOVE_SEND_ONCE`, the port being
active. -/
def copyinMoveSendOnce (name : MachPort) (entry : IpcEntry) :
    Option (Except KernReturn (CopiedObject × Option ℕ) × RightState × IpcEntry) :=
  let p := s.ports port
  let bits := entry.ieBits
  if bits &&& machPortTypeSendOnce = 0 then
    if bits &&& machPortTypeSend ≠ 0 ∧ 0 < p.ipSrights then
      some (.error .invalidRight, s, entry)
    else none
  else if ieBitsType bits = machPortTypeSendOnce ∧ ieBitsUrefs bits = 1 ∧ 0 < p.ipSorights then
    (s.ipcRightDncancel sizes port name entry).map fun (dnrequest, s, entry) =>
      (.ok (.port port, dnrequest), s,
        { entry with ieBits := bits &&& ~~~machPortTypeSendOnce, ieObject := none })
  else none

variable (msgtName : AnySend)

/-- `ipc_right_copyin` for the rights that are copied or moved. -/
def copyinHeld (deadok : Bool) (entry : IpcEntry) :
    Option (Except KernReturn (CopiedObject × Option ℕ) × RightState × IpcEntry) :=
  let move := decide (msgtName ≠ .copySend)
  if entry.ieBits &&& machPortTypeDeadName ≠ 0 then s.copyinDead move deadok entry
  else if entry.ieBits &&& machPortTypeSendRights = 0 then
    some (.error .invalidRight, s, entry)
  else if ieBitsUrefs entry.ieBits = 0 then none
  else
    match entry.ieObject with
    | none => none
    | some port =>
      match s.ipcRightCheck port name entry with
      | none => none
      | some (true, s, entry) => s.copyinDead move deadok entry
      | some (false, s, entry) =>
        if msgtName = .copySend then s.copyinCopySend port entry
        else if msgtName = .moveSend then s.copyinMoveSend sizes port name entry
        else s.copyinMoveSendOnce sizes port name entry

/-- `ipc_right_copyin`: the object and the send-once right of a cancelled dead-name request,
or what it returns otherwise. -/
def ipcRightCopyin (deadok : Bool) (entry : IpcEntry) :
    Option (Except KernReturn (CopiedObject × Option ℕ) × RightState × IpcEntry) :=
  match msgtName with
  | .makeSend => s.copyinMake false name entry
  | .makeSendOnce => s.copyinMake true name entry
  | .copySend => s.copyinHeld sizes name .copySend deadok entry
  | .moveSend => s.copyinHeld sizes name .moveSend deadok entry
  | .moveSendOnce => s.copyinHeld sizes name .moveSendOnce deadok entry

/-- The end of `ipc_right_copyin_undo`: the reference acquired by the copyin is released. -/
def undoRelease : CopiedObject → RightState
  | .ioDead => s
  | .port address => s.ipcPortRelease address

/-- The entry that `ipc_right_copyin_undo` makes of one that the copyin emptied. -/
def undoEntry (urefs : BitVec 32) : IpcEntry :=
  { entry with ieBits := (entry.ieBits &&& ~~~ieBitsRightMask) ||| machPortTypeDeadName ||| urefs }

def ipcRightCopyinUndo (object : CopiedObject)
    (soright : Option ℕ) (entry : IpcEntry) : Option (RightState × IpcEntry) :=
  let bits := entry.ieBits
  let moved := msgtName = .moveSend ∨ msgtName = .moveSendOnce
  if ¬(moved ∨ msgtName = .copySend) then none
  else if soright ≠ none then
    if moved ∧ ieBitsType bits = machPortTypeNone ∧ entry.ieObject = none ∧
        object ≠ .ioDead then
      some (s.undoRelease object, undoEntry entry 2)
    else none
  else if ieBitsType bits = machPortTypeNone then
    if moved ∧ entry.ieObject = none then some (s.undoRelease object, undoEntry entry 1)
    else none
  else if ieBitsType bits = machPortTypeDeadName then
    if entry.ieObject = none ∧ object = .ioDead ∧ ieBitsUrefs bits ≠ 0 ∧
        (msgtName ≠ .copySend → ieBitsUrefs bits < machPortUrefsMax) then
      some (s.undoRelease object,
        { entry with ieBits := if msgtName ≠ .copySend then bits + 1 else bits })
    else none
  else
    match object with
    | .ioDead => none
    | .port port =>
      if (msgtName = .moveSend ∨ msgtName = .copySend) ∧ ieBitsType bits = machPortTypeSend ∧
          entry.ieObject = some port ∧ ieBitsUrefs bits ≠ 0 ∧
          (msgtName ≠ .copySend → ieBitsUrefs bits < machPortUrefsMax - 1) then
        (s.ipcRightCheck port name
            { entry with ieBits := if msgtName ≠ .copySend then bits + 1 else bits }).map
          fun (_, s, entry) => (s.undoRelease object, entry)
      else none

/-- The notification by the caller of `ipc_right_copyin_undo`: with the send-once right that
the copyin returned, if it returned one. -/
def callerNotifies (soright : Option ℕ) : List (MachPort × ℕ) :=
  soright.toList.map fun soright => (name, soright)

end RightState

end MachVirtuTerm
