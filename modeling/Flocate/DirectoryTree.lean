import Flocate.DirectoryWalk

/-!
# The directories of a tree

A directory of a tree is given by its path, and a walk enters it if neither its path nor a name on
the way is pruned.
-/

namespace Flocate

open Bytes

structure Tree where
  node : Node
  content : Dir

def Tree.isDir (t : Tree) : Bool := t.node.metadata.isDir

namespace Dir

def entries : Dir → List (Str × Tree)
  | nil => []
  | cons name node content rest => (name, ⟨node, content⟩) :: rest.entries

def find (name : Str) : Dir → Option Tree
  | nil => none
  | cons n node content rest => if n = name then some ⟨node, content⟩ else rest.find name

def kinds (dir : Dir) : List (Str × Bool) := dir.entries.map fun e => (e.1, e.2.isDir)

/-- To prove something of all directories, it is enough to take it for granted of the directories in
a directory. -/
theorem treeInduction {P : Dir → Prop}
    (h : ∀ dir : Dir, (∀ e ∈ dir.entries, P e.2.content) → P dir) (dir : Dir) : P dir := by
  have hall : P dir ∧ ∀ e ∈ dir.entries, P e.2.content := by
    induction dir with
    | nil => exact ⟨h nil (List.forall_mem_nil _), List.forall_mem_nil _⟩
    | cons name node content rest ihContent ihRest =>
        have hentries : ∀ e ∈ (cons name node content rest).entries, P e.2.content := by
          rw [entries, List.forall_mem_cons]
          exact ⟨ihContent.1, ihRest.2⟩
        exact ⟨h _ hentries, hentries⟩
  exact hall.1

theorem map_fst_entries (dir : Dir) : dir.entries.map Prod.fst = dir.names := by
  induction dir with
  | nil => rfl
  | cons name node content rest _ ih => rw [entries, List.map_cons, ih, names]

theorem mem_of_find {dir : Dir} {name : Str} {t : Tree} (h : dir.find name = some t) :
    (name, t) ∈ dir.entries := by
  induction dir with
  | nil => cases h
  | cons n node content rest _ ih =>
      rw [find] at h
      split at h
      · rename_i hname
        obtain rfl := Option.some.inj h
        exact hname ▸ List.mem_cons_self
      · exact List.mem_cons_of_mem _ (ih h)

theorem WellFormed.find_of_mem {dir : Dir} (h : dir.WellFormed) {name : Str} {t : Tree}
    (ht : (name, t) ∈ dir.entries) : dir.find name = some t := by
  induction dir with
  | nil => cases ht
  | cons n node content rest _ ih =>
      rw [find]
      rcases List.mem_cons.mp ht with heq | ht
      · rw [Prod.mk.injEq] at heq
        rw [if_pos heq.1.symm, heq.2]
      · have hne : n ≠ name := by
          rintro rfl
          exact h.2.1 (map_fst_entries rest ▸ List.mem_map_of_mem ht)
        rw [if_neg hne, ih h.2.2.2 ht]

theorem WellFormed.named {dir : Dir} (h : dir.WellFormed) {name : Str} {t : Tree}
    (ht : (name, t) ∈ dir.entries) : name ≠ [] ∧ 47 ∉ name := by
  induction dir with
  | nil => cases ht
  | cons n node content rest _ ih =>
      rcases List.mem_cons.mp ht with heq | ht
      · rw [Prod.mk.injEq] at heq
        exact heq.1 ▸ ⟨h.1.1, h.1.2.1⟩
      · exact ih h.2.2.2 ht

theorem WellFormed.content {dir : Dir} (h : dir.WellFormed) {name : Str} {t : Tree}
    (ht : (name, t) ∈ dir.entries) : t.content.WellFormed := by
  induction dir with
  | nil => cases ht
  | cons n node content rest _ ih =>
      rcases List.mem_cons.mp ht with heq | ht
      · rw [Prod.mk.injEq] at heq
        exact heq.2 ▸ h.2.2.1
      · exact ih h.2.2.2 ht

end Dir

inductive DirectoryAt : Str → Tree → Str → Tree → Prop where
  | here (path : Str) (t : Tree) : DirectoryAt path t path t
  | inside {path name p : Str} {t sub d : Tree} : (name, sub) ∈ t.content.entries →
      sub.isDir = true → DirectoryAt (withSlash path ++ name) sub p d → DirectoryAt path t p d

inductive Entered (conf : Conf) : Str → Tree → Str → Tree → Prop where
  | here {path : Str} {t : Tree} : path ∉ conf.prunepaths → Entered conf path t path t
  | inside {path name p : Str} {t sub d : Tree} : path ∉ conf.prunepaths →
      (name, sub) ∈ t.content.entries → sub.isDir = true → name ∉ conf.prunenames →
      Entered conf (withSlash path ++ name) sub p d → Entered conf path t p d

section Entered

variable {conf : Conf} {path p name : Str} {t d sub : Tree}

theorem Entered.directoryAt (h : Entered conf path t p d) : DirectoryAt path t p d := by
  induction h with
  | here _ => exact DirectoryAt.here _ _
  | inside _ hmem hdir _ _ ih => exact DirectoryAt.inside hmem hdir ih

/-- From a directory that is entered to one in it. -/
theorem Entered.entry (h : Entered conf path t p d) (hmem : (name, sub) ∈ d.content.entries)
    (hdir : sub.isDir = true) (hname : name ∉ conf.prunenames)
    (hpath : withSlash p ++ name ∉ conf.prunepaths) :
    Entered conf path t (withSlash p ++ name) sub := by
  induction h with
  | here hroot => exact .inside hroot hmem hdir hname (.here hpath)
  | inside hroot hmem' hdir' hname' _ ih => exact .inside hroot hmem' hdir' hname' (ih hmem hpath)

/-- A directory in a directory begins with it. -/
theorem withSlash_isPrefix (path name : Str) :
    withSlash path <+: withSlash (withSlash path ++ name) := by
  refine List.IsPrefix.trans (List.prefix_append (withSlash path) name) ?_
  nth_rewrite 2 [withSlash]
  split
  · exact List.prefix_refl _
  · exact List.prefix_append _ _

theorem DirectoryAt.isPrefix (h : DirectoryAt path t p d) : withSlash path <+: withSlash p := by
  induction h with
  | here path t => exact List.prefix_refl _
  | @inside path name p t sub d _ _ _ ih => exact (withSlash_isPrefix path name).trans ih

theorem DirectoryAt.wellFormed (h : DirectoryAt path t p d) (ht : t.content.WellFormed) :
    d.content.WellFormed := by
  induction h with
  | here path t => exact ht
  | inside hmem _ _ ih => exact ih (ht.content hmem)

/-- There is one directory at most with a path. -/
theorem DirectoryAt.unique {p' : Str} {d' : Tree} (ht : t.content.WellFormed)
    (h : DirectoryAt path t p d) (h' : DirectoryAt path t p' d')
    (hpath : withSlash p = withSlash p') : p = p' ∧ d = d' := by
  induction h with
  | here path t =>
      cases h' with
      | here => exact ⟨rfl, rfl⟩
      | inside hmem _ h' =>
          exact absurd hpath.symm (ne_of_prefix_entry h'.isPrefix (ht.named hmem))
  | @inside path name p t sub d hmem _ h ih =>
      cases h' with
      | here => exact absurd hpath (ne_of_prefix_entry h.isPrefix (ht.named hmem))
      | @inside _ name' _ _ sub' _ hmem' _ h' =>
          have hname : name = name' := by
            refine entry_eq_of_isPrefix h.isPrefix ?_ (ht.named hmem) (ht.named hmem')
            rw [hpath]
            exact h'.isPrefix
          subst hname
          obtain rfl := Option.some.inj ((ht.find_of_mem hmem).symm.trans (ht.find_of_mem hmem'))
          exact ih (ht.content hmem) h' hpath

theorem Entered.wellFormed (h : Entered conf path t p d) (ht : t.content.WellFormed) :
    d.content.WellFormed := h.directoryAt.wellFormed ht

theorem Entered.isPrefix (h : Entered conf path t p d) : withSlash path <+: withSlash p :=
  h.directoryAt.isPrefix

/-- How a walk has come to a directory. -/
theorem Entered.last (h : Entered conf path t p d) (ht : t.content.WellFormed) :
    p ∉ conf.prunepaths ∧ (p = path ∨
      ∃ q name, p = withSlash q ++ name ∧ name ∉ conf.prunenames ∧ 47 ∉ name) := by
  induction h with
  | here hpruned => exact ⟨hpruned, Or.inl rfl⟩
  | @inside path name p t sub d _ hmem _ hname _ ih =>
      obtain ⟨hpruned, hlast⟩ := ih (ht.content hmem)
      refine ⟨hpruned, Or.inr ?_⟩
      rcases hlast with rfl | hlast
      · exact ⟨path, name, rfl, hname, (ht.named hmem).2⟩
      · exact hlast

end Entered

def walkTree (env : ScanEnv) (old : OldDatabase) (args : ScanArgs) (content : Dir) :
    WalkOutput :=
  walkDirectory env old args (content.found env) (content.visits env old)

section Find

variable (env : ScanEnv) (old : OldDatabase)

theorem lookup_found (dir : Dir) (name : Str) : lookup (dir.found env) name =
    (dir.find name).map fun t => ⟨name, t.node, fun args => scan env t.content args⟩ := by
  induction dir with
  | nil => rfl
  | cons n node content rest _ ih =>
      rw [lookup] at ih ⊢
      rw [Dir.found, Dir.find]
      by_cases hname : n = name
      · rw [List.find?_cons_of_pos (by exact decide_eq_true hname), if_pos hname]
        rw [hname]
        rfl
      · rw [List.find?_cons_of_neg (by simpa using hname), if_neg hname, ih]

theorem find_visits (dir : Dir) (name : Str) :
    ((dir.visits env old).find? fun v => v.name = name) =
      (dir.find name).map fun t => ⟨name, fun args => walkTree env old args t.content⟩ := by
  induction dir with
  | nil => rfl
  | cons n node content rest _ ih =>
      rw [Dir.visits, Dir.find]
      by_cases hname : n = name
      · rw [List.find?_cons_of_pos (by exact decide_eq_true hname), if_pos hname]
        rw [hname]
        rfl
      · rw [List.find?_cons_of_neg (by simpa using hname), if_neg hname, ih]

/-- The visit of an entry is the walk of what there is. -/
theorem visitEntry_some {dir : Dir} {e : Entry} {t : Tree} (h : dir.find e.name = some t)
    (args : ScanArgs) : visitEntry args (dir.found env) (dir.visits env old) e =
      if e.isDirectory && e.opened then walkTree env old (subdirArgs args t.node e) t.content
      else {} := by
  rw [visitEntry, lookup_found, find_visits, h]
  rfl

theorem visitEntry_none {dir : Dir} {e : Entry} (h : dir.find e.name = none) (args : ScanArgs) :
    visitEntry args (dir.found env) (dir.visits env old) e = {} := by
  rw [visitEntry, lookup_found, h]
  rfl

end Find

end Flocate
