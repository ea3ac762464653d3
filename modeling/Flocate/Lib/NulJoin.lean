import Flocate.Lib.Bytes

/-!
# Strings separated by zero bytes

`joinNul` puts a zero byte between the strings and none behind the last one. With one more zero
byte, every string is terminated by its own.
-/

namespace Bytes

def joinNul : List Str → Str
  | [] => []
  | [s] => s
  | s :: t :: ss => s ++ 0 :: joinNul (t :: ss)

def terminateNul (ss : List Str) : Str := ss.flatMap (· ++ [0])

/-- Neither empty nor cut short by a zero byte. -/
structure IsName (s : Str) : Prop where
  ne_nil : s ≠ []
  nul_free : 0 ∉ s

theorem joinNul_append_nul {ss : List Str} (h : ss ≠ []) : joinNul ss ++ [0] = terminateNul ss := by
  induction ss with
  | nil => exact absurd rfl h
  | cons s ss ih =>
      cases ss with
      | nil => simp [joinNul, terminateNul]
      | cons t ss =>
          rw [joinNul, List.append_assoc, List.cons_append, ih (List.cons_ne_nil t ss)]
          simp [terminateNul]

theorem joinNul_eq_nil {ss : List Str} (h : ∀ s ∈ ss, IsName s) : joinNul ss = [] ↔ ss = [] := by
  cases ss with
  | nil => simp [joinNul]
  | cons s ss =>
      cases ss with
      | nil => simp [joinNul, (h s List.mem_cons_self).ne_nil]
      | cons t ss => simp [joinNul]

theorem joinNul_concat {ss : List Str} (hss : ss ≠ []) (s : Str) :
    joinNul (ss ++ [s]) = joinNul ss ++ 0 :: s := by
  induction ss with
  | nil => exact absurd rfl hss
  | cons t ss ih =>
      cases ss with
      | nil => rfl
      | cons u ss =>
          rw [List.cons_append, List.cons_append, joinNul, ← List.cons_append,
            ih (List.cons_ne_nil u ss), joinNul, List.append_assoc, List.cons_append]

/-- The strings that are terminated by zero bytes. -/
def splitNul (p : Str) : List Str :=
  if _h : p = [] then []
  else p.takeWhile (· ≠ 0) :: splitNul (p.drop ((p.takeWhile (· ≠ 0)).length + 1))
termination_by p.length
decreasing_by
  have := List.length_pos_iff.mpr _h
  rw [List.length_drop]
  omega

theorem takeWhile_append_nul {s : Str} (h : 0 ∉ s) (p : Str) :
    (s ++ 0 :: p).takeWhile (· ≠ 0) = s := by
  rw [List.takeWhile_append_of_pos]
  · simp
  · intro b hb
    exact decide_eq_true fun h0 => h (h0 ▸ hb)

theorem splitNul_terminateNul {ss : List Str} (h : ∀ s ∈ ss, 0 ∉ s) :
    splitNul (terminateNul ss) = ss := by
  induction ss with
  | nil => rw [splitNul, dif_pos (by rfl)]
  | cons s ss ih =>
      rw [List.forall_mem_cons] at h
      have hcons : terminateNul (s :: ss) = s ++ 0 :: terminateNul ss := by simp [terminateNul]
      have hdrop : (s ++ 0 :: terminateNul ss).drop (s.length + 1) = terminateNul ss := by
        rw [List.drop_append]
        simp
      rw [hcons, splitNul, dif_neg (by simp), takeWhile_append_nul h.1, hdrop, ih h.2]

theorem splitNul_append_nul {s : Str} (h : 0 ∉ s) : splitNul (s ++ [0]) = [s] := by
  have hsplit : splitNul (terminateNul [s]) = [s] := splitNul_terminateNul (by simpa using h)
  rwa [terminateNul, List.flatMap_singleton] at hsplit

section Separator

variable {α : Type*} {x : α} {l : List α}

/-- What does not contain the separator lies on one side of it. -/
theorem infix_of_infix_append_cons (hx : x ∉ l) {s t : List α} (h : l <:+: s ++ x :: t) :
    l <:+: s ∨ l <:+: t := by
  obtain ⟨p, q, h⟩ := h
  rcases List.append_eq_append_iff.mp h with ⟨r, rfl, -⟩ | ⟨r, hpl, hr⟩
  · exact Or.inl ⟨p, r, rfl⟩
  · cases r with
    | nil => exact Or.inl ⟨p, [], by simpa using hpl⟩
    | cons y r =>
        obtain ⟨rfl, rfl⟩ := List.cons.inj hr
        rcases List.append_eq_append_iff.mp hpl with ⟨r', rfl, hl⟩ | ⟨r', rfl, hl⟩
        · exact absurd (hl ▸ List.mem_append_right r' List.mem_cons_self) hx
        · cases r' with
          | nil =>
              obtain rfl : x :: r = l := hl
              exact absurd List.mem_cons_self hx
          | cons z r' =>
              obtain ⟨-, rfl⟩ := List.cons.inj hl
              exact Or.inr ⟨r', q, rfl⟩

/-- What comes before the first separator and what comes behind it. -/
theorem append_cons_inj_of_first {s s' t t' : List α} (hs : x ∉ s) (hs' : x ∉ s')
    (h : s ++ x :: t = s' ++ x :: t') : s = s' ∧ t = t' := by
  induction s generalizing s' with
  | nil =>
      cases s' with
      | nil => exact ⟨rfl, (List.cons.inj h).2⟩
      | cons y s' => exact absurd ((List.cons.inj h).1 ▸ List.mem_cons_self) hs'
  | cons z s ih =>
      cases s' with
      | nil => exact absurd ((List.cons.inj h).1 ▸ List.mem_cons_self) hs
      | cons y s' =>
          obtain ⟨rfl, htail⟩ := List.cons.inj h
          obtain ⟨rfl, rfl⟩ := ih (fun hx => hs (List.mem_cons_of_mem z hx))
            (fun hx => hs' (List.mem_cons_of_mem z hx)) htail
          exact ⟨rfl, rfl⟩

theorem infix_of_infix_flatMap (hx : x ∉ l) (hl : l ≠ []) {ss : List (List α)}
    (h : l <:+: ss.flatMap (· ++ [x])) : ∃ s ∈ ss, l <:+: s := by
  induction ss with
  | nil => exact absurd (List.infix_nil.mp h) hl
  | cons s ss ih =>
      rw [List.flatMap_cons, List.append_assoc, List.singleton_append] at h
      rcases infix_of_infix_append_cons hx h with h | h
      · exact ⟨s, List.mem_cons_self, h⟩
      · obtain ⟨s', hs', h⟩ := ih h
        exact ⟨s', List.mem_cons_of_mem s hs', h⟩

end Separator

end Bytes
