import Flocate.Lib.BitStream

/-!
# Traces of stores

What a program writes is the list of its stores, in order. A writer may store behind the end that it
returns; `Writes` bounds how far, and writers after each other keep the bound.
-/

namespace Bytes

structure Store where
  addr : ℕ
  bytes : Str
deriving DecidableEq

def runStores (mem : Memory) (stores : List Store) : Memory :=
  stores.foldl (fun mem s => writeBytes mem s.addr s.bytes) mem

/-- The stores of a writer that starts at `out` and returns `last`. -/
structure Writes (slop out : ℕ) (stores : List Store) (last : ℕ) : Prop where
  le : out ≤ last
  within : ∀ s ∈ stores, out ≤ s.addr ∧ s.addr + s.bytes.length ≤ last + slop

variable {slop out mid last : ℕ} {stores more : List Store} {mem : Memory}

@[simp] theorem runStores_nil (mem : Memory) : runStores mem [] = mem := rfl

@[simp] theorem runStores_cons (mem : Memory) (s : Store) (stores : List Store) :
    runStores mem (s :: stores) = runStores (writeBytes mem s.addr s.bytes) stores := rfl

@[simp] theorem runStores_append (mem : Memory) (stores more : List Store) :
    runStores mem (stores ++ more) = runStores (runStores mem stores) more :=
  List.foldl_append

theorem writes_nil (slop out : ℕ) : Writes slop out [] out := ⟨Nat.le_refl out, nofun⟩

theorem writes_singleton {s : Store} (hle : out ≤ last) (haddr : out ≤ s.addr)
    (hend : s.addr + s.bytes.length ≤ last + slop) : Writes slop out [s] last :=
  ⟨hle, List.forall_mem_singleton.mpr ⟨haddr, hend⟩⟩

/-- A writer that starts where the one before it ended. -/
theorem Writes.append (h : Writes slop out stores mid) (hmore : Writes slop mid more last) :
    Writes slop out (stores ++ more) last := by
  refine ⟨h.le.trans hmore.le, fun s hs => ?_⟩
  rcases List.mem_append.mp hs with hs | hs
  · obtain ⟨haddr, hend⟩ := h.within s hs
    exact ⟨haddr, hend.trans (Nat.add_le_add_right hmore.le slop)⟩
  · obtain ⟨haddr, hend⟩ := hmore.within s hs
    exact ⟨h.le.trans haddr, hend⟩

theorem Writes.mono {slop' : ℕ} (h : Writes slop out stores last) (hle : slop ≤ slop') :
    Writes slop' out stores last :=
  ⟨h.le, fun s hs => (h.within s hs).imp_right fun hend => hend.trans (Nat.add_le_add_left hle _)⟩

/-- Memory outside of the reach of a writer is unchanged. -/
theorem Writes.frame (h : Writes slop out stores last) (mem : Memory) {a : ℕ}
    (ha : a < out ∨ last + slop ≤ a) : runStores mem stores a = mem a := by
  have hall := h.within
  clear h
  induction stores generalizing mem with
  | nil => rfl
  | cons s stores ih =>
      rw [List.forall_mem_cons] at hall
      obtain ⟨⟨haddr, hend⟩, hall⟩ := hall
      rw [runStores_cons, ih _ hall]
      rcases ha with ha | ha
      · exact writeBytes_of_lt mem s.bytes (by omega)
      · exact writeBytes_of_ge mem s.bytes (by omega)

end Bytes
