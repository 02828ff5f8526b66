import Mathlib.Data.BitVec
import Mathlib.Data.List.Count
import Mathlib.Data.List.Nodup

/-!
# The global reverse hash table

The splay tree entries of all spaces stand in buckets by their space and object. A lookup moves what
it finds to the front. The table is a map from spaces and objects to entries all the same, and each
space knows how many entries it has there.
-/

open List Function

namespace MachVirtuTerm

/-- `struct ipc_tree_entry`, as long as it is in the table. -/
structure TreeEntry where
  iteName : BitVec 32
  iteSpace : ℕ
  iteObject : ℕ
  deriving DecidableEq

/-- The space and the object of an entry. -/
def TreeEntry.key (entry : TreeEntry) : ℕ × ℕ := (entry.iteSpace, entry.iteObject)

/-- `ipc_hash_global_table`, and `is_tree_hash` of the spaces. -/
structure GlobalHash where
  /-- `ihgb_head`, with what follows. -/
  bucket : ℕ → List TreeEntry
  isTreeHash : ℕ → ℕ

namespace GlobalHash

variable (mask : ℕ) (g : GlobalHash)

/-- `IH_GLOBAL_HASH`, of addresses. -/
def ihGlobalHash (key : ℕ × ℕ) : ℕ :=
  ((key.1 % 2 ^ 32 / 2 ^ 4 + key.2 % 2 ^ 32 / 2 ^ 6) % 2 ^ 32) &&& mask

/-- `ipc_hash_global_lookup`. -/
def ipcHashGlobalLookup (key : ℕ × ℕ) : Option TreeEntry × GlobalHash :=
  match (g.bucket (ihGlobalHash mask key)).find? (·.key = key) with
  | none => (none, g)
  | some this =>
    (some this, { g with
      bucket := update g.bucket (ihGlobalHash mask key)
        (this :: (g.bucket (ihGlobalHash mask key)).erase this) })

/-- `ipc_hash_global_insert`. -/
def ipcHashGlobalInsert (entry : TreeEntry) : GlobalHash where
  bucket := update g.bucket (ihGlobalHash mask entry.key)
    (entry :: g.bucket (ihGlobalHash mask entry.key))
  isTreeHash := update g.isTreeHash entry.iteSpace (g.isTreeHash entry.iteSpace + 1)

/-- `ipc_hash_global_delete`. -/
def ipcHashGlobalDelete (entry : TreeEntry) : GlobalHash where
  bucket := update g.bucket (ihGlobalHash mask entry.key)
    ((g.bucket (ihGlobalHash mask entry.key)).erase entry)
  isTreeHash := update g.isTreeHash entry.iteSpace (g.isTreeHash entry.iteSpace - 1)

/-- `ipc_hash_lookup`, where the local table does not have the object. -/
def ipcHashLookup (key : ℕ × ℕ) : Option TreeEntry × GlobalHash :=
  if g.isTreeHash key.1 > 0 then g.ipcHashGlobalLookup mask key else (none, g)

/-- The table has these entries. -/
structure Holds (entries : List TreeEntry) : Prop where
  nodup : (entries.map (·.key)).Nodup
  bucket : ∀ i, (g.bucket i).Perm (entries.filter (ihGlobalHash mask ·.key = i))
  count : ∀ space, g.isTreeHash space = entries.countP (·.iteSpace = space)

variable {mask g} {entries : List TreeEntry} {entry : TreeEntry} {key : ℕ × ℕ}

theorem Holds.mem_bucket (h : g.Holds mask entries) :
    entry ∈ g.bucket (ihGlobalHash mask entry.key) ↔ entry ∈ entries := by
  rw [(h.bucket _).mem_iff]
  simp

/-- What a lookup finds. -/
theorem Holds.lookup (h : g.Holds mask entries) :
    (g.ipcHashLookup mask key).2.Holds mask entries ∧
      ∀ entry, (g.ipcHashLookup mask key).1 = some entry ↔ entry ∈ entries ∧ entry.key = key := by
  unfold ipcHashLookup ipcHashGlobalLookup
  split_ifs with hpos
  · cases hfind : (g.bucket (ihGlobalHash mask key)).find? (·.key = key) with
    | none =>
      refine ⟨h, fun entry => iff_of_false (fun h => by cases h) ?_⟩
      rintro ⟨hmem, rfl⟩
      simpa using find?_eq_none.mp hfind entry (h.mem_bucket.mpr hmem)
    | some this =>
      have hkey : this.key = key := by simpa using find?_some hfind
      subst hkey
      have hmem := mem_of_find?_eq_some hfind
      refine ⟨⟨h.nodup, fun i => ?_, h.count⟩, fun entry => ⟨?_, ?_⟩⟩
      · refine Perm.trans ?_ (h.bucket i)
        dsimp only
        by_cases hi : i = ihGlobalHash mask this.key
        · subst hi
          rw [update_self]
          exact (perm_cons_erase hmem).symm
        · rw [update_of_ne hi]
      · rintro ⟨⟩
        exact ⟨h.mem_bucket.mp hmem, rfl⟩
      · rintro ⟨hentry, hkey⟩
        exact congrArg some (inj_on_of_nodup_map h.nodup (h.mem_bucket.mp hmem) hentry hkey.symm)
  · refine ⟨h, fun entry => iff_of_false (fun h => by cases h) ?_⟩
    rintro ⟨hmem, rfl⟩
    rw [h.count] at hpos
    exact hpos (countP_pos_iff.mpr ⟨entry, hmem, by simp [TreeEntry.key]⟩)

theorem Holds.insert (h : g.Holds mask entries) (hfree : ∀ e ∈ entries, e.key ≠ entry.key) :
    (g.ipcHashGlobalInsert mask entry).Holds mask (entry :: entries) where
  nodup := by
    rw [map_cons]
    exact nodup_cons.mpr ⟨by simpa using hfree, h.nodup⟩
  bucket i := by
    dsimp only [ipcHashGlobalInsert]
    by_cases hi : i = ihGlobalHash mask entry.key
    · subst hi
      rw [update_self, filter_cons_of_pos (by simp)]
      exact (h.bucket _).cons _
    · rw [update_of_ne hi, filter_cons_of_neg (by simpa using Ne.symm hi)]
      exact h.bucket i
  count space := by
    dsimp only [ipcHashGlobalInsert]
    by_cases hspace : space = entry.iteSpace
    · subst hspace
      rw [update_self, countP_cons_of_pos (by simp), h.count]
    · rw [update_of_ne hspace, countP_cons_of_neg (by simpa using Ne.symm hspace), h.count]

theorem Holds.delete (h : g.Holds mask entries) (hmem : entry ∈ entries) :
    (g.ipcHashGlobalDelete mask entry).Holds mask (entries.erase entry) where
  nodup := h.nodup.sublist (erase_sublist.map _)
  bucket i := by
    dsimp only [ipcHashGlobalDelete]
    rw [← erase_filter]
    by_cases hi : i = ihGlobalHash mask entry.key
    · subst hi
      rw [update_self]
      exact (h.bucket _).erase entry
    · rw [update_of_ne hi, erase_of_not_mem (by simp [Ne.symm hi])]
      exact h.bucket i
  count space := by
    dsimp only [ipcHashGlobalDelete]
    rw [countP_erase, ← h.count]
    by_cases hspace : space = entry.iteSpace
    · subst hspace
      rw [update_self, if_pos ⟨hmem, by simp⟩]
    · rw [update_of_ne hspace, if_neg (by simp [Ne.symm hspace]), Nat.sub_zero]

/-- The tables that calls lead to, and the entries they have. No second entry is inserted for a
space and an object, and what is deleted is there. -/
inductive Reached (mask : ℕ) : GlobalHash → List TreeEntry → Prop
  | init : Reached mask ⟨fun _ => [], fun _ => 0⟩ []
  | lookup {g : GlobalHash} {entries : List TreeEntry} (key : ℕ × ℕ)
    (h : Reached mask g entries) : Reached mask (g.ipcHashLookup mask key).2 entries
  | insert {g : GlobalHash} {entries : List TreeEntry} {entry : TreeEntry}
    (h : Reached mask g entries) (hfree : ∀ e ∈ entries, e.key ≠ entry.key) :
    Reached mask (g.ipcHashGlobalInsert mask entry) (entry :: entries)
  | delete {g : GlobalHash} {entries : List TreeEntry} {entry : TreeEntry}
    (h : Reached mask g entries) (hmem : entry ∈ entries) :
    Reached mask (g.ipcHashGlobalDelete mask entry) (entries.erase entry)

/-- After any calls, a lookup finds the entry that was inserted for its space and object and not
since deleted, and a space counts its entries. -/
theorem global_reverse_hash (h : Reached mask g entries) (key : ℕ × ℕ) :
    (∀ entry, (g.ipcHashLookup mask key).1 = some entry ↔ entry ∈ entries ∧ entry.key = key) ∧
      g.isTreeHash key.1 = entries.countP (·.iteSpace = key.1) := by
  have hholds : g.Holds mask entries := by
    induction h with
    | init => exact ⟨nodup_nil, fun _ => Perm.refl _, fun _ => rfl⟩
    | lookup key h ih => exact ih.lookup.1
    | insert h hfree ih => exact ih.insert hfree
    | delete h hmem ih => exact ih.delete hmem
  exact ⟨hholds.lookup.2, hholds.count _⟩

/-- Of two entries in a bucket, the first one is found behind the other. -/
theorem global_reverse_hash_two : ∃ g entries, Reached 0 g entries ∧
    (g.bucket 0).map (·.iteName) = [512, 256] ∧
      (g.ipcHashLookup 0 (4096, 64)).1 = some ⟨256, 4096, 64⟩ := by
  have hone : Reached 0 _ [⟨256, 4096, 64⟩] := .insert .init (forall_mem_nil _)
  have htwo : Reached 0 _ [⟨512, 4096, 128⟩, ⟨256, 4096, 64⟩] := .insert hone (by decide)
  exact ⟨_, _, htwo, rfl, ((global_reverse_hash htwo _).1 _).mpr ⟨by decide, rfl⟩⟩

end GlobalHash

end MachVirtuTerm
