import Flocate.DirPath
import Mathlib.Data.Finset.Max
import Mathlib.Data.Prod.Lex
import Mathlib.Data.List.Infix

/-!
# Bind mounts

`rebuild_bind_mount_paths` puts a mount aside if the root of another one of its device is a prefix
of its own as a string. The mount that remains for it is the first one with the shortest such root.
Nothing is hidden exactly if that root is a directory above, and if no other mount has the mount
point of the one that remains put aside.
-/

namespace Flocate

open Bytes

structure Mount where
  id : ℤ
  devMajor : UInt32
  devMinor : UInt32
  root : Str
  mountPoint : Str
deriving DecidableEq

namespace Mount

def sameDevice (me other : Mount) : Bool :=
  me.devMajor = other.devMajor ∧ me.devMinor = other.devMinor

/-- The body of the inner loop: the other mount makes this one superfluous. -/
def isBehind (me other : Mount) : Bool :=
  me.id ≠ other.id ∧
    (other.root.length < me.root.length ∧ other.root <+: me.root ∨
      me.root = other.root ∧ other.id < me.id)

def isPushed (entries : List Mount) (me : Mount) : Bool :=
  entries.any fun other => me.sameDevice other && me.isBehind other

end Mount

def rebuildBindMountPaths (entries : List Mount) : List Str :=
  stringListDirPathSort ((entries.filter (Mount.isPushed entries)).map (·.mountPoint))

def DirAncestor (a b : Str) : Prop :=
  a = b ∨ (if a.getLast? = some 47 then a else a ++ [47]) <+: b

instance (a b : Str) : Decidable (DirAncestor a b) := inferInstanceAs (Decidable (_ ∨ _))

/-- Everything below a mount point that is put aside can be reached below one that is not. -/
def HidesNothing (entries : List Mount) : Prop :=
  ∀ me ∈ entries, me.mountPoint ∈ rebuildBindMountPaths entries → ∃ other ∈ entries,
    me.sameDevice other = true ∧ other.mountPoint ∉ rebuildBindMountPaths entries ∧
      DirAncestor other.root me.root

/-- A root that no other root of its device is a prefix of is only a prefix of what is below it. -/
def PrefixesAreAncestors (entries : List Mount) : Prop :=
  ∀ a ∈ entries, ∀ b ∈ entries, b.sameDevice a = true → a.root <+: b.root →
    (∀ c ∈ entries, a.sameDevice c = true → c.root <+: a.root → c.root = a.root) →
    DirAncestor a.root b.root

/-- No other root of its device is a prefix, except for the same one under a higher id. -/
def Mount.IsFirst (entries : List Mount) (me : Mount) : Prop :=
  ∀ other ∈ entries, me.sameDevice other = true → other.root <+: me.root →
    other.root = me.root ∧ me.id ≤ other.id

/-- Of the mounts at one mount point each is the first one with its root, or none is. -/
def MountPointsAgree (entries : List Mount) : Prop :=
  ∀ a ∈ entries, ∀ b ∈ entries, a.mountPoint = b.mountPoint → a.IsFirst entries →
    b.IsFirst entries

section Mounts

variable {entries : List Mount} {a b c me other : Mount}

theorem Mount.sameDevice_iff : me.sameDevice other = true ↔
    me.devMajor = other.devMajor ∧ me.devMinor = other.devMinor := decide_eq_true_iff

theorem Mount.sameDevice_symm (h : me.sameDevice other = true) : other.sameDevice me = true := by
  rw [sameDevice_iff] at h ⊢
  exact ⟨h.1.symm, h.2.symm⟩

theorem Mount.sameDevice_trans (hab : a.sameDevice b = true) (hbc : b.sameDevice c = true) :
    a.sameDevice c = true := by
  rw [sameDevice_iff] at *
  exact ⟨hab.1.trans hbc.1, hab.2.trans hbc.2⟩

theorem Mount.isBehind_iff : me.isBehind other = true ↔ me.id ≠ other.id ∧
    (other.root.length < me.root.length ∧ other.root <+: me.root ∨
      me.root = other.root ∧ other.id < me.id) := decide_eq_true_iff

theorem Mount.isPushed_iff : me.isPushed entries = true ↔
    ∃ other ∈ entries, me.sameDevice other = true ∧ me.isBehind other = true := by
  rw [isPushed, List.any_eq_true]
  simp only [Bool.and_eq_true]

theorem mem_rebuildBindMountPaths {path : Str} : path ∈ rebuildBindMountPaths entries ↔
    ∃ me ∈ entries, me.isPushed entries = true ∧ me.mountPoint = path := by
  rw [rebuildBindMountPaths, (stringListDirPathSort_perm _).mem_iff, List.mem_map]
  simp only [List.mem_filter, and_assoc]

theorem DirAncestor.prefix {a b : Str} (h : DirAncestor a b) : a <+: b := by
  rcases h with rfl | h
  · exact List.prefix_rfl
  · split at h
    · exact h
    · exact (List.prefix_append a [47]).trans h

theorem Mount.isPushed_eq_false_iff (hids : (entries.map (·.id)).Nodup) (hme : me ∈ entries) :
    me.isPushed entries = false ↔ me.IsFirst entries := by
  rw [Bool.eq_false_iff, ne_eq, isPushed_iff]
  constructor
  · intro h other hother hdevice hwithin
    have hroot : other.root = me.root := by
      by_contra hne
      have hlength : other.root.length < me.root.length :=
        lt_of_le_of_ne hwithin.length_le fun hlength => hne (hwithin.eq_of_length hlength)
      have hid : me.id ≠ other.id := by
        intro hid
        obtain rfl := List.inj_on_of_nodup_map hids hme hother hid
        exact hne rfl
      exact h ⟨other, hother, hdevice, isBehind_iff.mpr ⟨hid, Or.inl ⟨hlength, hwithin⟩⟩⟩
    refine ⟨hroot, not_lt.mp fun hid => h ⟨other, hother, hdevice, ?_⟩⟩
    exact isBehind_iff.mpr ⟨hid.ne', Or.inr ⟨hroot.symm, hid⟩⟩
  · rintro h ⟨other, hother, hdevice, hbehind⟩
    obtain ⟨-, ⟨hlength, hwithin⟩ | ⟨hroot, hid⟩⟩ := isBehind_iff.mp hbehind
    · obtain ⟨hroot, -⟩ := h other hother hdevice hwithin
      rw [hroot] at hlength
      exact lt_irrefl _ hlength
    · obtain ⟨-, hle⟩ := h other hother hdevice (hroot ▸ List.prefix_rfl)
      exact absurd hid (not_lt.mpr hle)

/-- What is not put aside is the first one with its root, and so are all at its mount point. -/
theorem notMem_rebuildBindMountPaths_iff (hids : (entries.map (·.id)).Nodup) {path : Str} :
    path ∉ rebuildBindMountPaths entries ↔
      ∀ me ∈ entries, me.mountPoint = path → me.IsFirst entries := by
  rw [mem_rebuildBindMountPaths]
  constructor
  · intro h me hme hpath
    rw [← Mount.isPushed_eq_false_iff hids hme, Bool.eq_false_iff]
    exact fun hpushed => h ⟨me, hme, hpushed, hpath⟩
  · rintro h ⟨me, hme, hpushed, hpath⟩
    rw [(Mount.isPushed_eq_false_iff hids hme).mpr (h me hme hpath)] at hpushed
    cases hpushed

/-- Among the mounts whose roots are prefixes of a root, there is a first one of the shortest. -/
theorem exists_isFirst (hme : me ∈ entries) : ∃ other ∈ entries, me.sameDevice other = true ∧
    other.root <+: me.root ∧ other.IsFirst entries := by
  let candidates := entries.toFinset.filter fun other =>
    me.sameDevice other = true ∧ other.root <+: me.root
  have hmem (other : Mount) : other ∈ candidates ↔
      other ∈ entries ∧ me.sameDevice other = true ∧ other.root <+: me.root := by
    rw [Finset.mem_filter, List.mem_toFinset]
  obtain ⟨other, hother, hmin⟩ := candidates.exists_min_image
    (fun other => toLex (other.root.length, other.id))
    ⟨me, (hmem me).mpr ⟨hme, Mount.sameDevice_iff.mpr ⟨rfl, rfl⟩, List.prefix_rfl⟩⟩
  obtain ⟨hin, hdevice, hwithin⟩ := (hmem other).mp hother
  refine ⟨other, hin, hdevice, hwithin, fun c hc hdevice' hwithin' => ?_⟩
  have hle := hmin c ((hmem c).mpr
    ⟨hc, Mount.sameDevice_trans hdevice hdevice', hwithin'.trans hwithin⟩)
  rcases Prod.Lex.toLex_le_toLex.mp hle with hlength | ⟨hlength, hid⟩
  · exact absurd hwithin'.length_le (not_le.mpr hlength)
  · exact ⟨hwithin'.eq_of_length hlength.symm, hid⟩

theorem hidesNothing_iff (entries : List Mount) (hids : (entries.map (·.id)).Nodup) :
    HidesNothing entries ↔ PrefixesAreAncestors entries ∧ MountPointsAgree entries := by
  constructor
  · intro h
    have hfirst {other : Mount} (hother : other ∈ entries)
        (hkept : other.mountPoint ∉ rebuildBindMountPaths entries) : other.IsFirst entries :=
      (notMem_rebuildBindMountPaths_iff hids).mp hkept other hother rfl
    constructor
    · intro a ha b hb hdevice hwithin hleast
      by_cases heq : b.root = a.root
      · exact Or.inl heq.symm
      · have hpushed : b.mountPoint ∈ rebuildBindMountPaths entries := by
          by_contra hkept
          exact heq (hfirst hb hkept a ha hdevice hwithin).1.symm
        obtain ⟨other, hother, hdevice', hkept, hancestor⟩ := h b hb hpushed
        have hab : a.sameDevice other = true :=
          Mount.sameDevice_trans (Mount.sameDevice_symm hdevice) hdevice'
        have hroot : other.root = a.root := by
          rcases List.prefix_or_prefix_of_prefix hancestor.prefix hwithin with hle | hle
          · exact hleast other hother hab hle
          · exact (hfirst hother hkept a ha (Mount.sameDevice_symm hab) hle).1.symm
        rwa [hroot] at hancestor
    · -- A first mount is the only one that can stand for itself.
      intro a ha b hb hpoint hafirst
      suffices hkept : a.mountPoint ∉ rebuildBindMountPaths entries from
        (notMem_rebuildBindMountPaths_iff hids).mp hkept b hb hpoint.symm
      intro hpushed
      obtain ⟨other, hother, hdevice, hkept, hancestor⟩ := h a ha hpushed
      obtain ⟨hroot, hle⟩ := hafirst other hother hdevice hancestor.prefix
      obtain ⟨-, hge⟩ := hfirst hother hkept a ha (Mount.sameDevice_symm hdevice)
        (hroot ▸ List.prefix_rfl)
      obtain rfl := List.inj_on_of_nodup_map hids ha hother (le_antisymm hle hge)
      exact hkept hpushed
  · rintro ⟨hprefixes, hagree⟩ me hme _
    obtain ⟨other, hother, hdevice, hwithin, hfirst⟩ := exists_isFirst hme
    refine ⟨other, hother, hdevice, ?_, ?_⟩
    · rw [notMem_rebuildBindMountPaths_iff hids]
      exact fun b hb hpoint => hagree other hother b hb hpoint.symm hfirst
    · exact hprefixes other hother me hme hdevice hwithin
        fun c hc hdevice' hwithin' => (hfirst c hc hdevice' hwithin').1

end Mounts

section Examples

def nestedMounts : List Mount :=
  [{ id := 22, devMajor := 8, devMinor := 1, root := ascii "/data", mountPoint := ascii "/data" },
    { id := 23, devMajor := 8, devMinor := 1, root := ascii "/data/www",
      mountPoint := ascii "/srv/www" },
    { id := 24, devMajor := 8, devMinor := 1, root := ascii "/data/www/new",
      mountPoint := ascii "/srv/www" }]

theorem hidesNothing_nestedMounts : HidesNothing nestedMounts := by
  apply (hidesNothing_iff nestedMounts (by decide)).mpr
  constructor
  · unfold PrefixesAreAncestors
    decide
  · unfold MountPointsAgree Mount.IsFirst
    decide

def subvolumes : List Mount :=
  [{ id := 22, devMajor := 0, devMinor := 30, root := ascii "/@", mountPoint := ascii "/" },
    { id := 41, devMajor := 0, devMinor := 30, root := ascii "/@home",
      mountPoint := ascii "/home" }]

/-- `/home` is put aside, although nothing of it can be reached below `/`. -/
theorem not_hidesNothing_subvolumes : (subvolumes.map (·.id)).Nodup ∧
    ascii "/home" ∈ rebuildBindMountPaths subvolumes ∧ ¬HidesNothing subvolumes := by
  have hpushed : ascii "/home" ∈ rebuildBindMountPaths subvolumes :=
    mem_rebuildBindMountPaths.mpr ⟨_, List.mem_cons_of_mem _ List.mem_cons_self, by decide, rfl⟩
  refine ⟨by decide, hpushed, fun h => ?_⟩
  obtain ⟨other, hother, -, hkept, hancestor⟩ :=
    h _ (List.mem_cons_of_mem _ List.mem_cons_self) hpushed
  rw [subvolumes, List.mem_pair] at hother
  rcases hother with rfl | rfl
  · exact absurd hancestor (by decide)
  · exact hkept hpushed

end Examples

end Flocate
