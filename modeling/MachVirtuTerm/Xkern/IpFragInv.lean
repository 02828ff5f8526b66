import MachVirtuTerm.Xkern.IpFragments

/-!
# The list of holes and fragments

The entries of a list lie side by side, the last of the datagram first. A fragment that is put
into a hole leaves them so under a condition: if it was trimmed on the left, it has to reach
the end of the hole or be the last of the datagram; the last one has to reach the end of the
hole or go into the one without end; and memory must not run out between two holes.
-/

open List

namespace MachVirtuTerm

variable {C D : ℕ → Byte → Prop} {l l₁ l₂ pre post rest : List FragInfo} {bottom mid top : ℕ}
  {a : FragAllocs} {offset len first last : ℕ} {more : Bool} {data full : List Byte}

section Tiles

/-- The entries lie side by side, from the top down, and the bytes received at a place may be
there. -/
def Tiles (C : ℕ → Byte → Prop) (bottom : ℕ) : List FragInfo → ℕ → Prop
  | [], top => top = bottom
  | .hole first last :: rest, top => last = top ∧ first < last ∧ Tiles C bottom rest first
  | .frag b :: rest, top =>
    ∃ start, top = start + b.length ∧ (∀ i x, b[i]? = some x → C (start + i) x) ∧
      Tiles C bottom rest start

/-- The holes of a list. -/
def holes : List FragInfo → List (ℕ × ℕ)
  | [] => []
  | .hole first last :: rest => (first, last) :: holes rest
  | .frag _ :: rest => holes rest

theorem holes_append (l₁ l₂ : List FragInfo) : holes (l₁ ++ l₂) = holes l₁ ++ holes l₂ := by
  induction l₁ with
  | nil => rfl
  | cons e l₁ ih =>
    cases e with
    | hole first last => simp only [cons_append, holes, ih]
    | frag b => simp only [cons_append, holes, ih]

theorem tiles_append :
    Tiles C bottom (l₁ ++ l₂) top ↔ ∃ mid, Tiles C mid l₁ top ∧ Tiles C bottom l₂ mid := by
  induction l₁ generalizing top with
  | nil => simp [Tiles]
  | cons e l₁ ih =>
    cases e with
    | hole first last =>
      simp only [cons_append, Tiles, ih]
      constructor
      · rintro ⟨hlast, hlt, mid, h₁, h₂⟩
        exact ⟨mid, ⟨hlast, hlt, h₁⟩, h₂⟩
      · rintro ⟨mid, ⟨hlast, hlt, h₁⟩, h₂⟩
        exact ⟨hlast, hlt, mid, h₁, h₂⟩
    | frag b =>
      simp only [cons_append, Tiles, ih]
      constructor
      · rintro ⟨start, htop, hC, mid, h₁, h₂⟩
        exact ⟨mid, ⟨start, htop, hC, h₁⟩, h₂⟩
      · rintro ⟨mid, ⟨start, htop, hC, h₁⟩, h₂⟩
        exact ⟨start, htop, hC, mid, h₁, h₂⟩

theorem Tiles.mono (h : Tiles C bottom l top) (hCD : ∀ i x, C i x → D i x) :
    Tiles D bottom l top := by
  induction l generalizing top with
  | nil => exact h
  | cons e l ih =>
    cases e with
    | hole first last => exact ⟨h.1, h.2.1, ih h.2.2⟩
    | frag b =>
      obtain ⟨start, htop, hC, hrest⟩ := h
      exact ⟨start, htop, fun i x hx => hCD _ _ (hC i x hx), ih hrest⟩

/-- Every hole takes room. -/
theorem Tiles.length_holes_le (h : Tiles C bottom l top) : bottom + (holes l).length ≤ top := by
  induction l generalizing top with
  | nil => exact le_of_eq h.symm
  | cons e l ih =>
    cases e with
    | hole first last =>
      obtain ⟨hlast, hlt, hrest⟩ := h
      have hle := ih hrest
      simp only [holes, length_cons]
      omega
    | frag b =>
      obtain ⟨start, htop, -, hrest⟩ := h
      have hle := ih hrest
      simp only [holes]
      omega

theorem Tiles.hole_le (h : Tiles C bottom l top) {hole : ℕ × ℕ} (hmem : hole ∈ holes l) :
    bottom ≤ hole.1 ∧ hole.1 < hole.2 ∧ hole.2 ≤ top := by
  induction l generalizing top with
  | nil => cases hmem
  | cons e l ih =>
    cases e with
    | hole first last =>
      obtain ⟨hlast, hlt, hrest⟩ := h
      have hle := hrest.length_holes_le
      rcases mem_cons.mp hmem with rfl | hmem
      · exact ⟨by simp only; omega, hlt, le_of_eq hlast⟩
      · obtain ⟨h₁, h₂, h₃⟩ := ih hrest hmem
        exact ⟨h₁, h₂, by omega⟩
    | frag b =>
      obtain ⟨start, htop, -, hrest⟩ := h
      obtain ⟨h₁, h₂, h₃⟩ := ih hrest hmem
      exact ⟨h₁, h₂, by omega⟩

/-- Entries that take no room can lie anywhere. -/
theorem Tiles.move (h : Tiles C mid l mid) (bottom : ℕ) : Tiles C bottom l bottom := by
  have hlow (l : List FragInfo) (top : ℕ) (h : Tiles C mid l top) : mid ≤ top := by
    have hle := h.length_holes_le
    omega
  induction l with
  | nil => rfl
  | cons e l ih =>
    cases e with
    | hole first last =>
      obtain ⟨hlast, hlt, hrest⟩ := h
      have hle := hlow l first hrest
      omega
    | frag b =>
      obtain ⟨start, htop, -, hrest⟩ := h
      have hle := hlow l start hrest
      have hnil : b = [] := List.length_eq_zero_iff.mp (by omega)
      have hstart : start = mid := by omega
      subst hnil hstart
      exact ⟨bottom, rfl, by simp, ih hrest⟩

/-- Joining entries without a hole gives the bytes of their places. -/
theorem Tiles.joinFrags_eq (h : Tiles C bottom l top) (hnone : holes l = []) (full : List Byte) :
    ∃ d, joinFrags l full = d ++ full ∧ top = bottom + d.length ∧
      ∀ i x, d[i]? = some x → C (bottom + i) x := by
  induction l generalizing top full with
  | nil => exact ⟨[], rfl, h, by simp⟩
  | cons e l ih =>
    cases e with
    | hole first last => cases hnone
    | frag b =>
      obtain ⟨start, htop, hC, hrest⟩ := h
      obtain ⟨d, hjoin, hstart, hd⟩ := ih hrest hnone (b ++ full)
      refine ⟨d ++ b, ?_, ?_, ?_⟩
      · rw [joinFrags, hjoin, append_assoc]
      · rw [length_append]
        omega
      · intro i x hx
        rcases lt_or_ge i d.length with hi | hi
        · rw [getElem?_append_left hi] at hx
          exact hd i x hx
        · rw [getElem?_append_right hi] at hx
          have hplace : start + (i - d.length) = bottom + i := by omega
          rw [← hplace]
          exact hC _ x hx

end Tiles

section Fill

/-- What becomes of the hole that a fragment is put in. -/
def filled (offset len : ℕ) (more : Bool) (data : List Byte) (first last : ℕ) : List FragInfo :=
  let start := max offset first
  let stop := min (offset + len) last
  (if stop < last ∧ more = true then [.hole stop last] else []) ++
    .frag ((data.drop (start - offset)).take (stop - start)) ::
      (if first < start then [.hole first start] else [])

/-- The fragment reaches the end of the hole if it was trimmed on the left and is not the last
of the datagram, and memory does not run out between two holes. -/
structure TrimOk (a : FragAllocs) (offset len : ℕ) (more : Bool) (first last : ℕ) : Prop where
  left : offset < first → more = true → last ≤ offset + len
  memory : more = true → offset + len < last → first < offset → a.above = true → a.below = true

/-- If it is the last, it reaches the end of the hole, unless the hole has none. -/
def LastOk (offset len : ℕ) (more : Bool) (last : ℕ) : Prop :=
  more = false → last ≤ offset + len ∨ last = infiniteOffset

instance : Decidable (LastOk offset len more last) := inferInstanceAs (Decidable (_ → _))

/-- There is no memory for a hole that the fragment leaves of the one it is put in. -/
def Lacks (a : FragAllocs) (offset len : ℕ) (more : Bool) (first last : ℕ) : Prop :=
  (offset + len < last ∧ more = true) ∧ a.above = false ∨ first < offset ∧ a.below = false

instance : Decidable (Lacks a offset len more first last) :=
  inferInstanceAs (Decidable (_ ∧ _ ∨ _))

/-- The message that is kept, and the `len` that `fillHole` goes on with. -/
theorem trimmed_eq (hlen : data.length = len) (hhole : first < last)
    (hover : Overlaps offset len first last)
    (hok : TrimOk a offset len more first last) :
    (if last < max offset first + len then
        (data.drop (max offset first - offset)).take (last - max offset first)
      else data.drop (max offset first - offset)) =
        (data.drop (max offset first - offset)).take (min (offset + len) last - max offset first) ∧
      (more = true → max offset first +
        (if last < max offset first + len then last - max offset first else len) =
          min (offset + len) last) := by
  obtain ⟨h₁, h₂⟩ := hover
  have hdrop : (data.drop (max offset first - offset)).length =
      len - (max offset first - offset) := by
    rw [length_drop, hlen]
  constructor
  · by_cases hlast : offset + len ≤ last
    · rw [Nat.min_eq_left hlast, take_of_length_le (i := offset + len - max offset first)
        (by omega)]
      split
      · exact take_of_length_le (by omega)
      · rfl
    · rw [Nat.min_eq_right (by omega), if_pos (by omega)]
  · intro hmore
    have hleft (h : offset < first) : last ≤ offset + len := hok.left h hmore
    split <;> omega

/-- Under these conditions the hole is filled, or left as it was if memory lacks. -/
theorem fillHole_eq (rest : List FragInfo) (hlen : data.length = len) (hhole : first < last)
    (hover : Overlaps offset len first last)
    (hok : TrimOk a offset len more first last) :
    fillHole a offset len more data first last rest =
      if Lacks a offset len more first last then ⟨.hole first last :: rest, 0, false⟩
      else ⟨filled offset len more data first last ++ rest,
        BitVec.ofNat 16 (holes (filled offset len more data first last)).length - 1, true⟩ := by
  obtain ⟨hdata, hstop⟩ := trimmed_eq hlen hhole hover hok
  have hstart : (if offset < first then first else offset) = max offset first := by
    split <;> omega
  have hleft : (if offset < first then data.drop (first - offset) else data) =
      data.drop (max offset first - offset) := by
    split
    next h => rw [Nat.max_eq_right (le_of_lt h)]
    next h => rw [Nat.max_eq_left (not_lt.mp h), Nat.sub_self, drop_zero]
  have habove : (if max offset first +
        (if last < max offset first + len then last - max offset first else len) < last ∧
          more = true
      then [FragInfo.hole (max offset first +
        (if last < max offset first + len then last - max offset first else len)) last] else []) =
      if min (offset + len) last < last ∧ more = true
      then [FragInfo.hole (min (offset + len) last) last] else [] := by
    by_cases hmore : more = true
    · rw [hstop hmore]
    · rw [if_neg fun h => hmore h.2, if_neg fun h => hmore h.2]
  have hup : (offset + len < last ∧ more = true) ↔ min (offset + len) last < last ∧ more = true :=
    and_congr_left fun _ => by omega
  have hdown : first < offset ↔ first < max offset first := by omega
  have hmemory := hok.memory
  unfold fillHole filled Lacks
  simp only [hstart, hleft, hdata, habove, hup, hdown]
  by_cases hup' : min (offset + len) last < last ∧ more = true
  · by_cases hdown' : first < max offset first
    · cases ha : a.above with
      | false => simp [hup']
      | true =>
        have hbelow := hmemory hup'.2 (hup.mpr hup').1 (hdown.mpr hdown') ha
        simp [hup', hdown', hbelow, holes]
    · cases ha : a.above <;> simp [hup', hdown', holes]
  · simp only [hup', if_false, false_and, false_or]
    by_cases hdown' : first < max offset first
    · cases ha : a.below <;> simp [hdown', holes]
    · simp [hdown', holes]

/-- The filled hole lies where the hole lay, or ends where the datagram does. -/
theorem tiles_filled (more : Bool) (hlen : data.length = len) (hhole : first < last)
    (hover : Overlaps offset len first last)
    (hdata : ∀ i x, data[i]? = some x → C (offset + i) x) :
    Tiles C first (filled offset len more data first last)
      (if more = false then min (offset + len) last else last) := by
  obtain ⟨h₁, h₂⟩ := hover
  obtain ⟨start, hstart⟩ : ∃ n, n = max offset first := ⟨_, rfl⟩
  obtain ⟨stop, hstop⟩ : ∃ n, n = min (offset + len) last := ⟨_, rfl⟩
  have hle : first ≤ start ∧ offset ≤ start ∧ start ≤ stop ∧ stop ≤ last ∧ stop ≤ offset + len := by
    omega
  obtain ⟨hfirst, hoffset, hlt, hlast, hend⟩ := hle
  have hlength : ((data.drop (start - offset)).take (stop - start)).length = stop - start := by
    rw [List.length_take, length_drop, hlen]
    omega
  have hbelow : Tiles C first (if first < start then [.hole first start] else []) start := by
    split
    next h => exact ⟨rfl, h, rfl⟩
    next h =>
      have heq : start = first := by omega
      exact heq
  have hfrag : Tiles C first (.frag ((data.drop (start - offset)).take (stop - start)) ::
      (if first < start then [.hole first start] else [])) stop := by
    refine ⟨start, by omega, ?_, hbelow⟩
    intro i x hx
    have hi : i < stop - start := by
      obtain ⟨hi, -⟩ := List.getElem?_eq_some_iff.mp hx
      rwa [hlength] at hi
    rw [getElem?_take_of_lt hi, getElem?_drop] at hx
    have hplace : offset + (start - offset + i) = start + i := by omega
    rw [← hplace]
    exact hdata _ x hx
  unfold filled
  rw [← hstart, ← hstop]
  cases more with
  | false => simpa using hfrag
  | true =>
    simp only [Bool.true_eq_false, if_false, and_true]
    split
    next h => exact ⟨rfl, h, hfrag⟩
    next h =>
      have heq : stop = last := by omega
      rw [← heq]
      exact hfrag

/-- The holes it leaves are the parts of the hole below and, but for the last fragment, above
the fragment. -/
theorem mem_holes_filled {hole : ℕ × ℕ} :
    hole ∈ holes (filled offset len more data first last) ↔
      (hole = (min (offset + len) last, last) ∧ min (offset + len) last < last ∧ more = true) ∨
        hole = (first, max offset first) ∧ first < max offset first := by
  unfold filled
  rw [holes_append, mem_append]
  apply or_congr
  · split
    next h => simp only [holes, mem_singleton, h, and_self, and_true]
    next h => simp only [holes, not_mem_nil, h, and_false]
  · split
    next h => simp [holes, h]
    next h => simp [holes, h]

end Fill

section Insert

/-- The hole that a fragment is put in. -/
def firstHole (offset len : ℕ) (l : List FragInfo) : Option (ℕ × ℕ) :=
  (holes l).find? fun hole => Overlaps offset len hole.1 hole.2

/-- A fragment is put into the first hole it overlaps, if there is one and memory does not lack. -/
theorem insertFrag_eq (hlen : data.length = len) (h : Tiles C bottom l top)
    (hok : ∀ hole, firstHole offset len l = some hole → TrimOk a offset len more hole.1 hole.2) :
    (insertFrag a offset len more data l = ⟨l, 0, true⟩ ∧
        ∀ hole ∈ holes l, ¬ Overlaps offset len hole.1 hole.2) ∨
      ∃ pre first last post, l = pre ++ .hole first last :: post ∧
        (∀ hole ∈ holes pre, ¬ Overlaps offset len hole.1 hole.2) ∧
        Overlaps offset len first last ∧
        insertFrag a offset len more data l =
          if Lacks a offset len more first last then ⟨l, 0, false⟩
          else ⟨pre ++ filled offset len more data first last ++ post,
            BitVec.ofNat 16 (holes (filled offset len more data first last)).length - 1,
            true⟩ := by
  induction l generalizing top with
  | nil => exact .inl ⟨rfl, by simp [holes]⟩
  | cons e l ih =>
    cases e with
    | frag b =>
      obtain ⟨start, -, -, hrest⟩ := h
      rcases ih hrest hok with ⟨heq, hnone⟩ | ⟨pre, first, last, post, rfl, hpre, hover, heq⟩
      · left
        simp only [insertFrag, heq]
        exact ⟨trivial, hnone⟩
      · right
        refine ⟨.frag b :: pre, first, last, post, rfl, hpre, hover, ?_⟩
        simp only [insertFrag, heq]
        split <;> rfl
    | hole first last =>
      obtain ⟨-, hhole, hrest⟩ := h
      by_cases hover : Overlaps offset len first last
      · right
        refine ⟨[], first, last, l, rfl, by simp [holes], hover, ?_⟩
        have hfirst : firstHole offset len (.hole first last :: l) = some (first, last) := by
          simp [firstHole, holes, hover]
        have hfill := fillHole_eq l hlen hhole hover (hok _ hfirst)
        simp only [insertFrag, if_pos hover]
        simpa using hfill
      · have hok' : ∀ hole, firstHole offset len l = some hole →
            TrimOk a offset len more hole.1 hole.2 := by
          intro hole hsome
          apply hok
          simpa [firstHole, holes, hover] using hsome
        rcases ih hrest hok' with ⟨heq, hnone⟩ | ⟨pre, first', last', post, rfl, hpre, hover', heq⟩
        · left
          simp only [insertFrag, if_neg hover, heq]
          refine ⟨trivial, ?_⟩
          intro hole hmem
          rcases mem_cons.mp hmem with rfl | hmem
          · exact hover
          · exact hnone hole hmem
        · right
          refine ⟨.hole first last :: pre, first', last', post, rfl, ?_, hover', ?_⟩
          · intro hole hmem
            rcases mem_cons.mp hmem with rfl | hmem
            · exact hover
            · exact hpre hole hmem
          · simp only [insertFrag, if_neg hover, heq]
            split <;> rfl

/-- A filled hole leaves the entries side by side. -/
theorem tiles_insert (hlen : data.length = len) (htop : top ≤ infiniteOffset)
    (h : Tiles C 0 (pre ++ .hole first last :: post) top)
    (hover : Overlaps offset len first last) (hlast : LastOk offset len more last)
    (hdata : ∀ i x, data[i]? = some x → C (offset + i) x) :
    Tiles C 0 (pre ++ filled offset len more data first last ++ post)
      (if more = false ∧ last = infiniteOffset then min (offset + len) last else top) := by
  obtain ⟨mid, hpre, hmid, hhole, hpost⟩ := tiles_append.mp h
  subst hmid
  have hfilled := tiles_filled more hlen hhole hover hdata
  have hle := hpre.length_holes_le
  rw [append_assoc]
  apply tiles_append.mpr
  split
  next hend =>
    obtain ⟨rfl, rfl⟩ := hend
    refine ⟨_, ?_, tiles_append.mpr ⟨first, hfilled, hpost⟩⟩
    have heq : top = infiniteOffset := by omega
    subst heq
    exact hpre.move _
  next hend =>
    refine ⟨last, hpre, tiles_append.mpr ⟨first, ?_, hpost⟩⟩
    cases more with
    | true => simpa using hfilled
    | false =>
      have hreach : last ≤ offset + len := by
        rcases hlast rfl with hreach | hinfinite
        · exact hreach
        · exact absurd ⟨rfl, hinfinite⟩ hend
      simpa [Nat.min_eq_right hreach] using hfilled

end Insert

end MachVirtuTerm
