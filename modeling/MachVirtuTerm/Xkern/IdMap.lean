import MachVirtuTerm.Lib.Run

/-!
# Maps of the x-kernel

An x-kernel map takes external keys, strings of bytes, to internal values. A map
with a fixed key size is searched by functions that one template defines for
each size that is often used, and by a generic one for the rest; a map whose key
size is not positive has keys of any length, and functions of its own. The
elements hang on chains, one for each value of the hash. Removed elements of the
fixed functions go to a free list, from which new bindings are served first, and
a cache holds the element that was last found or bound.

The memory of the elements is kept apart from the map: an address has the same
contents whether it is on a chain, on the free list or not allocated.
-/

open Function

namespace MachVirtuTerm.IdMap

/-- The bytes from an address on. -/
abbrev Bytes := Nat → UInt8

/-- The bytes from a later address on. -/
def Bytes.at (k : Bytes) (n : Nat) : Bytes := fun i => k (n + i)

/-- The first bytes. -/
def Bytes.take : Bytes → Nat → List UInt8
  | _, 0 => []
  | k, n + 1 => k 0 :: (k.at 1).take n

/-- A buffer that holds some bytes. -/
def toBytes (key : List UInt8) : Bytes := fun i => key.getD i 0

/-- What is left of the length at the first difference, zero if there is
none. -/
def bcmp : Bytes → Bytes → Nat → Nat
  | _, _, 0 => 0
  | a, b, len + 1 => if a 0 ≠ b 0 then len + 1 else bcmp (a.at 1) (b.at 1) len

/-- The destination after a copy. -/
def bcopy (src dst : Bytes) (len : Nat) : Bytes := fun i => if i < len then src i else dst i

/-- An `int` as the length of a string of bytes. -/
def sizeArg (len : ℤ) : Nat := (len % 2 ^ 32).toNat

def round4 (len : Nat) : Nat := (len + 3) / 4 * 4

/-! ## The template -/

def hash2 (K : Bytes) (tblSize : Nat) : Nat :=
  let h0 := (K 0).toNat
  let h1 := (K 1).toNat
  (((h0 <<< 2) + h1) ^^^ ((h1 <<< 2) + h0)) % tblSize

def hash4 (K : Bytes) (tblSize : Nat) : Nat :=
  let h0 := (K 0).toNat
  let h1 := (K 1).toNat
  let h2 := (K 2).toNat
  let h3 := (K 3).toNat
  ((h0 + (h2 <<< 2)) ^^^ (h1 + (h3 <<< 1)) ^^^ (h2 + (h0 <<< 1)) ^^^ ((h3 + h1) <<< 2)) % tblSize

def hash6 (k : Bytes) (tblSize : Nat) : Nat :=
  hash4 k tblSize ^^^ hash2 (k.at 4) tblSize

def hash8 (k : Bytes) (tblSize : Nat) : Nat :=
  hash4 k tblSize ^^^ hash4 (k.at 4) tblSize

def hash10 (k : Bytes) (tblSize : Nat) : Nat :=
  hash4 k tblSize ^^^ hash4 (k.at 4) tblSize ^^^ hash2 (k.at 8) tblSize

def hash12 (k : Bytes) (tblSize : Nat) : Nat :=
  hash4 k tblSize ^^^ hash4 (k.at 4) tblSize ^^^ hash4 (k.at 8) tblSize

def hash16 (k : Bytes) (tblSize : Nat) : Nat :=
  hash4 k tblSize ^^^ hash4 (k.at 4) tblSize ^^^ hash4 (k.at 8) tblSize ^^^ hash4 (k.at 12) tblSize

/-- The loop of `generichash`: the hash so far, and the rest of the key. -/
def hashLongs (tableSize : Nat) : Nat → Bytes → Nat → Nat × Bytes
  | 0, key, hash => (hash, key)
  | howmanylongs + 1, key, hash =>
    hashLongs tableSize howmanylongs (key.at 4) (hash ^^^ hash4 key tableSize)

/-- The generic hash. A negative number of longs is counted down all the way to
zero again, which takes the key through the whole memory. -/
def generichash (key : Bytes) (tableSize : Nat) (keySize : ℤ) : Option Nat :=
  let howmanylongs := keySize.tdiv 4
  if howmanylongs < 0 then none
  else
    let (hash, key) := hashLongs tableSize howmanylongs.toNat key 0
    let bits := BitVec.ofInt 32 keySize
    let (hash, key) :=
      if bits.getLsbD 1 then (hash ^^^ hash2 key tableSize, key.at 2) else (hash, key)
    let hash := if bits.getLsbD 0 then hash ^^^ (key 0).toNat else hash
    some ((hash &&& (tableSize - 1)) % tableSize)

/-- A word of four bytes. -/
def intAt (s : Bytes) (i : Nat) : Nat :=
  (s (4 * i)).toNat + (s (4 * i + 1)).toNat * 2 ^ 8 + (s (4 * i + 2)).toNat * 2 ^ 16 +
    (s (4 * i + 3)).toNat * 2 ^ 24

/-- A word of two bytes. -/
def shortAt (s : Bytes) (i : Nat) : Nat :=
  (s (2 * i)).toNat + (s (2 * i + 1)).toNat * 2 ^ 8

/-- Compare the bytes of a key, by words where both of the keys are aligned. -/
def compInts (ints : Nat) (short : Bool) (aligned : Bool) (s1 s2 : Bytes) (keySize : ℤ) : Bool :=
  if aligned then
    ((List.range ints).all fun i => intAt s1 i == intAt s2 i) &&
      (!short || shortAt s1 (2 * ints) == shortAt s2 (2 * ints))
  else bcmp s1 s2 (sizeArg keySize) == 0

/-- Copy the bytes of a key, by words where both of the keys are aligned. -/
def copyInts (ints : Nat) (short : Bool) (aligned : Bool) (s1 s2 : Bytes) (keySize : ℤ) : Bytes :=
  if aligned then fun i => if i < 4 * ints + (if short then 2 else 0) then s2 i else s1 i
  else bcopy s2 s1 (sizeArg keySize)

/-- The inclusions of the template. -/
inductive Template
  | m2
  | m4
  | m6
  | m8
  | m10
  | m12
  | m16
  | mgeneric
  deriving DecidableEq

/-- HASH of an inclusion. -/
def Template.hash (K : Bytes) (tblSize : Nat) (keySize : ℤ) : Template → Option Nat
  | .m2 => some (hash2 K tblSize)
  | .m4 => some (hash4 K tblSize)
  | .m6 => some (hash6 K tblSize)
  | .m8 => some (hash8 K tblSize)
  | .m10 => some (hash10 K tblSize)
  | .m12 => some (hash12 K tblSize)
  | .m16 => some (hash16 K tblSize)
  | .mgeneric => generichash K tblSize keySize

/-- COMPBYTES of an inclusion. -/
def Template.compBytes (aligned : Bool) (s1 s2 : Bytes) (keySize : ℤ) : Template → Bool
  | .m2 => s1 0 == s2 0 && s1 1 == s2 1
  | .m4 => compInts 1 false aligned s1 s2 keySize
  | .m6 => compInts 1 true aligned s1 s2 keySize
  | .m8 => compInts 2 false aligned s1 s2 keySize
  | .m10 => compInts 2 true aligned s1 s2 keySize
  | .m12 => compInts 3 false aligned s1 s2 keySize
  | .m16 => compInts 4 false aligned s1 s2 keySize
  | .mgeneric => bcmp s1 s2 (sizeArg keySize) == 0

/-- COPYBYTES of an inclusion. -/
def Template.copyBytes (aligned : Bool) (s1 s2 : Bytes) (keySize : ℤ) : Template → Bytes
  | .m2 => fun i => if i < 2 then s2 i else s1 i
  | .m4 => copyInts 1 false aligned s1 s2 keySize
  | .m6 => copyInts 1 true aligned s1 s2 keySize
  | .m8 => copyInts 2 false aligned s1 s2 keySize
  | .m10 => copyInts 2 true aligned s1 s2 keySize
  | .m12 => copyInts 3 false aligned s1 s2 keySize
  | .m16 => copyInts 4 false aligned s1 s2 keySize
  | .mgeneric => bcopy s2 s1 (sizeArg keySize)

/-! ## Elements and maps -/

/-- MAX_MAP_KEY_SIZE. -/
def maxMapKeySize : Nat := 100

inductive XkReturn
  | success
  | failure
  | alreadyBound
  | noMemory
  deriving DecidableEq

/-- An element, with the room for its key that was allocated. -/
structure MapElement (V : Type*) where
  elmlen : Nat
  internalid : V
  externalid : Bytes
  room : Nat

/-- A map, and the memory of its elements. The chains and the free list are
lists of addresses. -/
structure Map (A V : Type*) where
  tableSize : Nat
  keySize : ℤ
  reserved : ℤ
  cache : Option A
  freelist : List A
  table : Nat → List A
  /-- No function stands for `mgenericerror`. -/
  resolve : Option Template
  bind : Option Template
  unbind : Template
  remove : Template
  element : A → MapElement V
  allocated : A → Bool
  /-- Memory was read or written that is no part of the map. -/
  fault : Bool

/-- The entries of `map_functions` that `map_init` fills in. -/
def mapFunctions : Nat → Option Template
  | 2 => some .m2
  | 4 => some .m4
  | 6 => some .m6
  | 8 => some .m8
  | 10 => some .m10
  | 12 => some .m12
  | 16 => some .m16
  | _ => none

/-- The size of the table: a power of two that is not below the number of
entries. -/
def tableSizeOf (nEntries : Nat) : Nat :=
  let pow2 := nEntries.log2 + 1
  if nEntries = 2 ^ (pow2 - 1) then nEntries else 2 ^ pow2

/-- Create a map. There is no entry of `map_functions` for the largest key
size. -/
def mapCreate {A V : Type*} (memory : A → MapElement V) (nEntries : Nat) (keySize : ℤ)
    (noMemory : Bool) : Option (Map A V) :=
  if nEntries = 0 || maxMapKeySize < keySize || noMemory then none
  else
    let functions := (mapFunctions keySize.toNat).getD .mgeneric
    some
      { tableSize := tableSizeOf nEntries
        keySize := keySize
        reserved := 0
        cache := none
        freelist := []
        table := fun _ => []
        resolve := if 0 < keySize then some functions else none
        bind := if 0 < keySize then some functions else none
        unbind := if 0 < keySize then functions else .mgeneric
        remove := if 0 < keySize then functions else .mgeneric
        element := memory
        allocated := fun _ => false
        fault := keySize == maxMapKeySize }

/-- What a call tells its caller. -/
inductive Result (A V R : Type*)
  | returns (ret : XkReturn)
  | bound (ret : XkReturn) (bp : Option A)
  | resolved (value : V)
  | visited (visits : List R)
  /-- The wrong functions were used on a map with keys of any length, or the
  hash ran through the memory. -/
  | crashed
  deriving DecidableEq

/-- What the callback is called with: the key, and the value bound to it. -/
structure Visit (V : Type*) where
  key : List UInt8
  value : V
  deriving DecidableEq

/-- How a callback removes the current element itself. -/
inductive Direct
  | unbind
  | removeBinding
  deriving DecidableEq

/-- What a callback does: remove the element, and return the two flags. -/
structure Reply where
  direct : Option Direct
  mfeContinue : Bool
  mfeRemove : Bool
  deriving DecidableEq

/-- A callback, which may look at the visits so far. -/
abbrev MapForEachFun (V : Type*) := List (Visit V × Reply) → Visit V → Reply

namespace Map

variable {A V : Type*} [DecidableEq A]

/-! ## Elements -/

/-- Memory for an element and its key. What is handed out was not in use. -/
def allocGet (m : Map A V) (fresh : Option (A × MapElement V)) (size : Nat) :
    Option (A × Map A V) :=
  match fresh with
  | none => none
  | some (elem, contents) =>
    if m.allocated elem then none
    else
      some (elem, { m with
        element := update m.element elem { contents with room := round4 size }
        allocated := update m.allocated elem true })

/-- GETMAPELEM. -/
def getMapElem (m : Map A V) (fresh : Option (A × MapElement V)) : Option (A × Map A V) :=
  match m.freelist with
  | [] => m.allocGet fresh m.keySize.toNat
  | elem :: next => some (elem, { m with freelist := next })

/-- GETVARMAPELEM. -/
def getVarMapElem (m : Map A V) (size : Nat) (fresh : Option (A × MapElement V)) :
    Option (A × Map A V) :=
  match m.freelist with
  | [] => m.allocGet fresh size
  | elem :: next => some (elem, { m with freelist := next })

def reserveMapElem (m : Map A V) (fresh : Option (A × MapElement V)) : Option (Map A V) :=
  (m.allocGet fresh m.keySize.toNat).map fun (elem, m) =>
    { m with freelist := elem :: m.freelist }

def releaseMapElem (m : Map A V) : Map A V :=
  match m.freelist with
  | [] => m
  | elem :: next =>
    { m with
      freelist := next
      allocated := update m.allocated elem false }

/-- FREEVARMAPELEM. -/
def freeVarMapElem (m : Map A V) (elem : A) : Map A V :=
  { m with allocated := update m.allocated elem false }

/-- FREEIT. -/
def freeIt (m : Map A V) (elem : A) : Map A V :=
  { m with freelist := elem :: m.freelist }

/-- An element is taken out of a chain, and the cache emptied. -/
def unlink (m : Map A V) (ind : Nat) (elem : A) : Map A V :=
  { m with
    table := update m.table ind ((m.table ind).erase elem)
    cache := none }

/-- A new element is filled in and added at the end of a chain. -/
def append (m : Map A V) (ind : Nat) (elem : A) (contents : MapElement V) : Map A V :=
  { m with
    element := update m.element elem contents
    table := update m.table ind (m.table ind ++ [elem])
    cache := some elem }

/-- The first element of a chain that the comparison takes. -/
def search (m : Map A V) (ind : Nat) (p : MapElement V → Bool) : Option A :=
  (m.table ind).find? fun elem => p (m.element elem)

/-- The map after an access outside of it. -/
def faulted (m : Map A V) : Map A V := { m with fault := true }

variable {R : Type*}

/-! ## Keys of a fixed size -/

/-- BINDNAME. -/
def bindName [DecidableEq V] (T : Template) (m : Map A V) (ext : Bytes) (aligned : Bool)
    (intern : V) (fresh : Option (A × MapElement V)) : Map A V × Result A V R :=
  match T.hash ext m.tableSize m.keySize with
  | none => (m.faulted, .crashed)
  | some ind =>
    match m.search ind fun e => T.compBytes aligned e.externalid ext m.keySize with
    | some elem =>
      if (m.element elem).internalid = intern then (m, .bound .success (some elem))
      else (m, .bound .alreadyBound none)
    | none =>
      match m.getMapElem fresh with
      | none => (m, .bound .noMemory none)
      | some (elem, m) =>
        let e := m.element elem
        let m := if e.room < m.keySize then m.faulted else m
        (m.append ind elem
            { e with
              externalid := T.copyBytes aligned e.externalid ext m.keySize
              internalid := intern },
          .bound .success (some elem))

/-- RESOLVENAME. -/
def resolveName (T : Template) (m : Map A V) (ext : Bytes) (aligned : Bool) :
    Map A V × Result A V R :=
  let comp (e : MapElement V) := T.compBytes aligned e.externalid ext m.keySize
  match m.cache.filter fun elem => comp (m.element elem) with
  | some elem => (m, .resolved (m.element elem).internalid)
  | none =>
    match T.hash ext m.tableSize m.keySize with
    | none => (m.faulted, .crashed)
    | some ind =>
      match m.search ind comp with
      | some elem => ({ m with cache := some elem }, .resolved (m.element elem).internalid)
      | none => (m, .returns .failure)

/-- UNBINDNAME: remove an entry based on the key. -/
def unbindName (T : Template) (m : Map A V) (ext : Bytes) (aligned : Bool) :
    Map A V × Result A V R :=
  match T.hash ext m.tableSize m.keySize with
  | none => (m.faulted, .crashed)
  | some ind =>
    match m.search ind fun e => T.compBytes aligned e.externalid ext m.keySize with
    | some elem => ((m.unlink ind elem).freeIt elem, .returns .success)
    | none => ({ m with cache := none }, .returns .failure)

/-- REMOVENAME: remove an entry based on the binding. -/
def removeName (T : Template) (m : Map A V) (bind : A) : Map A V × Result A V R :=
  let m := if m.allocated bind then m else m.faulted
  match T.hash (m.element bind).externalid m.tableSize m.keySize with
  | none => (m.faulted, .crashed)
  | some ind =>
    if bind ∈ m.table ind then ((m.unlink ind bind).freeIt bind, .returns .success)
    else ({ m with cache := none }, .returns .failure)

def mapBind [DecidableEq V] (m : Map A V) (ext : Bytes) (aligned : Bool) (intern : V)
    (fresh : Option (A × MapElement V)) : Map A V × Result A V R :=
  match m.bind with
  | none => (m, .crashed)
  | some T => bindName T m ext aligned intern fresh

def mapResolve (m : Map A V) (ext : Bytes) (aligned : Bool) : Map A V × Result A V R :=
  match m.resolve with
  | none => (m, .crashed)
  | some T => resolveName T m ext aligned

def mapUnbind (m : Map A V) (ext : Bytes) (aligned : Bool) : Map A V × Result A V R :=
  unbindName m.unbind m ext aligned

def mapRemoveBinding (m : Map A V) (bind : A) : Map A V × Result A V R :=
  removeName m.remove m bind

/-! ## Keys of any length -/

def mapVarUnbind (m : Map A V) (ext : Bytes) (len : Nat) : Map A V × Result A V R :=
  match generichash ext m.tableSize len with
  | none => (m.faulted, .crashed)
  | some ind =>
    -- The lengths are not compared.
    match m.search ind fun e => bcmp e.externalid ext len == 0 with
    | some elem => ((m.unlink ind elem).freeVarMapElem elem, .returns .success)
    | none => ({ m with cache := none }, .returns .failure)

def mapVarBind [DecidableEq V] (m : Map A V) (ext : Bytes) (len : Nat) (intern : V)
    (fresh : Option (A × MapElement V)) : Map A V × Result A V R :=
  match generichash ext m.tableSize len with
  | none => (m.faulted, .crashed)
  | some ind =>
    match m.search ind fun e => bcmp e.externalid ext len == 0 with
    | some elem =>
      if (m.element elem).internalid = intern then (m, .bound .success (some elem))
      else (m, .bound .alreadyBound (some elem))
    | none =>
      match m.getVarMapElem len fresh with
      | none => (m, .bound .noMemory none)
      | some (elem, m) =>
        let e := m.element elem
        let m := if e.room < len then m.faulted else m
        (m.append ind elem
            { e with
              externalid := bcopy ext e.externalid len
              internalid := intern
              elmlen := len },
          .bound .success (some elem))

def mapVarResolve (m : Map A V) (ext : Bytes) (len : Nat) : Map A V × Result A V R :=
  let comp (e : MapElement V) := e.elmlen == len && bcmp e.externalid ext len == 0
  match m.cache.filter fun elem => comp (m.element elem) with
  | some elem => (m, .resolved (m.element elem).internalid)
  | none =>
    match generichash ext m.tableSize len with
    | none => (m.faulted, .crashed)
    | some ind =>
      match m.search ind comp with
      | some elem => ({ m with cache := some elem }, .resolved (m.element elem).internalid)
      | none => (m, .returns .failure)

/-! ## Reserved elements -/

/-- Release some elements. -/
def releaseMapElems (m : Map A V) : Nat → Map A V
  | 0 => m
  | n + 1 => m.releaseMapElem.releaseMapElems n

/-- The loop that reserves, after `i` elements: those are released again if
there is no memory for the next. -/
def reserveLoop (m : Map A V) (i : Nat) :
    Nat → List (Option (A × MapElement V)) → Map A V × XkReturn
  | 0, _ => (m, .success)
  | n + 1, fresh =>
    match m.reserveMapElem (fresh.head?.getD none) with
    | none => (m.releaseMapElems i, .failure)
    | some m => m.reserveLoop (i + 1) n fresh.tail

def mapReserve (m : Map A V) (n : ℤ) (fresh : List (Option (A × MapElement V))) :
    Map A V × Result A V R :=
  if m.keySize ≤ 0 then (m, .returns .failure)
  else if 0 ≤ n then
    match m.reserveLoop 0 n.toNat fresh with
    | (m, .success) => ({ m with reserved := m.reserved + n }, .returns .success)
    | (m, _) => (m, .returns .failure)
  else if m.reserved < -n then (m, .returns .failure)
  else ({ m with reserved := m.reserved + n }.releaseMapElems n.natAbs, .returns .success)

/-! ## Every binding -/

/-- The element after another in a chain. -/
def nextAfter (prevElem : A) : List A → Option A
  | [] => none
  | elem :: next => if prevElem = elem then next.head? else nextAfter prevElem next

/-- The bytes of the key that the callback gets. -/
def keyLen (m : Map A V) (elem : A) : Nat :=
  if 0 < m.keySize then m.keySize.toNat else (m.element elem).elmlen

/-- The callback removes the element it was called for. -/
def removeDirectly (m : Map A V) (elem : A) (key : List UInt8) : Option Direct → Map A V
  | none => m
  | some .unbind =>
    if 0 < m.keySize then (m.mapUnbind (toBytes key) false : _ × Result A V R).1
    else (m.mapVarUnbind (toBytes key) key.length : _ × Result A V R).1
  | some .removeBinding => (m.mapRemoveBinding elem : _ × Result A V R).1

/-- The visit of an element: the callback is called, and may remove it. -/
def visit (m : Map A V) (f : MapForEachFun V) (elem : A) (visits : List (Visit V × Reply)) :
    Map A V × Visit V × Reply :=
  let len := m.keyLen elem
  let m := if maxMapKeySize < len then m.faulted else m
  let v := ⟨(m.element elem).externalid.take len, (m.element elem).internalid⟩
  let reply := f visits v
  (@removeDirectly A V _ (Visit V × Reply) m elem v.key reply.direct, v, reply)

/-- The loop over a chain. The element before the next one is looked up again,
and taken out if its callback asked for it. A chain cannot be walked in more
turns than it has elements. -/
def forEachElem (f : MapForEachFun V) (i : Nat) :
    Nat → Map A V → Option A → Bool → List (Visit V × Reply) →
      Map A V × List (Visit V × Reply) × Bool
  | 0, m, _, _, visits => (m.faulted, visits, true)
  | fuel + 1, m, prevElem, mfeRemove, visits =>
    let elem :=
      match prevElem with
      | none => (m.table i).head?
      | some prev => nextAfter prev (m.table i)
    let m :=
      match prevElem with
      | none => m
      | some prev =>
        if mfeRemove then (m.mapRemoveBinding prev : _ × Result A V (Visit V × Reply)).1 else m
    match elem with
    | none => (m, visits, false)
    | some elem =>
      let (m, v, reply) := m.visit f elem visits
      let visits := visits ++ [(v, reply)]
      if reply.mfeContinue then forEachElem f i fuel m (some elem) reply.mfeRemove visits
      else (m, visits, true)

/-- The next element to visit. -/
def following (m : Map A V) (i : Nat) (prevElem : Option A) : Option A :=
  match prevElem with
  | none => (m.table i).head?
  | some prev => nextAfter prev (m.table i)

/-- The element is taken out that was asked for. -/
def takeOut (m : Map A V) (prevElem : Option A) (mfeRemove : Bool) : Map A V :=
  match prevElem with
  | none => m
  | some prev =>
    if mfeRemove then (m.mapRemoveBinding prev : _ × Result A V (Visit V × Reply)).1 else m

theorem forEachElem_succ (f : MapForEachFun V) (i fuel : Nat) (m : Map A V) (prevElem : Option A)
    (mfeRemove : Bool) (visits : List (Visit V × Reply)) :
    forEachElem f i (fuel + 1) m prevElem mfeRemove visits =
      match m.following i prevElem with
      | none => (m.takeOut prevElem mfeRemove, visits, false)
      | some elem =>
        let (m, v, reply) := (m.takeOut prevElem mfeRemove).visit f elem visits
        let visits := visits ++ [(v, reply)]
        if reply.mfeContinue then forEachElem f i fuel m (some elem) reply.mfeRemove visits
        else (m, visits, true) :=
  rfl

/-- The loop over the chains. -/
def forEachChain (f : MapForEachFun V) :
    List Nat → Map A V → List (Visit V × Reply) → Map A V × List (Visit V × Reply)
  | [], m, visits => (m, visits)
  | i :: is, m, visits =>
    match forEachElem f i ((m.table i).length + 1) m none false visits with
    | (m, visits, true) => (m, visits)
    | (m, visits, false) => forEachChain f is m visits

def mapForEach (m : Map A V) (f : MapForEachFun V) : Map A V × Result A V (Visit V × Reply) :=
  let (m, visits) := forEachChain f (List.range m.tableSize) m []
  (m, .visited visits)

end Map

/-! ## Runs -/

/-- The calls on a map, with what they get from the allocator, and the writes of
other parts of the system. -/
inductive MapAction (A V : Type*)
  | bind (ext : Bytes) (aligned : Bool) (intern : V) (fresh : Option (A × MapElement V))
  | resolve (ext : Bytes) (aligned : Bool)
  | unbind (ext : Bytes) (aligned : Bool)
  | removeBinding (bind : A)
  | varBind (ext : Bytes) (len : Nat) (intern : V) (fresh : Option (A × MapElement V))
  | varResolve (ext : Bytes) (len : Nat)
  | varUnbind (ext : Bytes) (len : Nat)
  | reserve (n : ℤ) (fresh : List (Option (A × MapElement V)))
  | forEach (f : MapForEachFun V)
  | others (elem : A) (contents : MapElement V)

variable {A V : Type*} [DecidableEq A] [DecidableEq V]

/-- What is not allocated, and what lies behind the key of an element, is
written by others. -/
def Map.writtenByOthers (m : Map A V) (elem : A) (contents : MapElement V) : Map A V :=
  let e := m.element elem
  { m with
    element := update m.element elem
      (if m.allocated elem then
        { e with externalid := fun i => if i < e.room then e.externalid i else contents.externalid i }
      else contents) }

/-- A call, and what it returns. -/
def Map.step (m : Map A V) : MapAction A V → Map A V × Result A V (Visit V × Reply)
  | .bind ext aligned intern fresh => m.mapBind ext aligned intern fresh
  | .resolve ext aligned => m.mapResolve ext aligned
  | .unbind ext aligned => m.mapUnbind ext aligned
  | .removeBinding bind => m.mapRemoveBinding bind
  | .varBind ext len intern fresh => m.mapVarBind ext len intern fresh
  | .varResolve ext len => m.mapVarResolve ext len
  | .varUnbind ext len => m.mapVarUnbind ext len
  | .reserve n fresh => m.mapReserve n fresh
  | .forEach f => m.mapForEach f
  | .others elem contents => (m.writtenByOthers elem contents, .returns .success)

end MachVirtuTerm.IdMap
