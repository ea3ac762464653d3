import Mathlib.Data.List.Nodup
import Mathlib.Logic.Relation

/-!
# Walks with a stack

A walk takes the first element of a stack, visits it and puts its children onto the stack. It visits
what can be reached from the stack, and nothing twice if no two branches have anything in common.
-/

namespace StackWalk

variable {α κ : Type} (children : α → List α) (weight : α → ℕ)

def total : List α → ℕ
  | [] => 0
  | a :: stack => weight a + total stack

/-- The children of an element are smaller than the element, all together. -/
def Shrinks : Prop := ∀ a, total weight (children a) < weight a

variable {children weight}

theorem total_append (xs ys : List α) :
    total weight (xs ++ ys) = total weight xs + total weight ys := by
  induction xs with
  | nil => exact (Nat.zero_add _).symm
  | cons x xs ih => rw [List.cons_append, total, total, ih, Nat.add_assoc]

theorem total_reverse (xs : List α) : total weight xs.reverse = total weight xs := by
  induction xs with
  | nil => rfl
  | cons x xs ih =>
      rw [List.reverse_cons, total_append, ih, Nat.add_comm, total, total, total, Nat.add_zero]

/-- The stack gets smaller. -/
theorem Shrinks.total_lt (h : Shrinks children weight) (a : α) (stack : List α) :
    total weight ((children a).reverse ++ stack) < total weight (a :: stack) := by
  rw [total_append, total_reverse, total]
  exact Nat.add_lt_add_right (h a) _

def visits (h : Shrinks children weight) : List α → List α
  | [] => []
  | a :: stack => a :: visits h ((children a).reverse ++ stack)
termination_by stack => total weight stack
decreasing_by exact h.total_lt a stack

def Leads (children : α → List α) : α → α → Prop :=
  Relation.ReflTransGen fun a b => b ∈ children a

section Visits

variable {h : Shrinks children weight} {stack : List α} {x : α}

/-- A walk visits what can be reached from the stack. -/
theorem mem_visits : x ∈ visits h stack ↔ ∃ a ∈ stack, Leads children a x := by
  induction stack using visits.induct h with
  | case1 =>
      rw [visits]
      simp
  | case2 a stack ih =>
      rw [visits, List.mem_cons, ih]
      constructor
      · rintro (rfl | ⟨b, hb, hleads⟩)
        · exact ⟨x, List.mem_cons_self, .refl⟩
        · rcases List.mem_append.mp hb with hb | hb
          · exact ⟨a, List.mem_cons_self, .head (List.mem_reverse.mp hb) hleads⟩
          · exact ⟨b, List.mem_cons_of_mem _ hb, hleads⟩
      · rintro ⟨b, hb, hleads⟩
        rcases List.mem_cons.mp hb with rfl | hb
        · rcases Relation.ReflTransGen.cases_head hleads with rfl | ⟨c, hc, hleads⟩
          · exact Or.inl rfl
          · exact Or.inr ⟨c, List.mem_append_left _ (List.mem_reverse.mpr hc), hleads⟩
        · exact Or.inr ⟨b, List.mem_append_right _ hb, hleads⟩

end Visits

structure Separates (children : α → List α) (good : α → Prop) (key : α → κ)
    (inside : α → κ → Prop) : Prop where
  step : ∀ a b, good a → b ∈ children a → good b
  self : ∀ a, inside a (key a)
  child : ∀ a b k, good a → b ∈ children a → inside b k → inside a k
  proper : ∀ a b, good a → b ∈ children a → ¬inside b (key a)
  disjoint : ∀ a, good a → (children a).Pairwise fun b c => ∀ k, inside b k → ¬inside c k

section Separates

variable {good : α → Prop} {key : α → κ} {inside : α → κ → Prop}

theorem Separates.leads (hs : Separates children good key inside) {a b : α} (ha : good a)
    (h : Leads children a b) : good b ∧ inside a (key b) := by
  induction h using Relation.ReflTransGen.head_induction_on with
  | refl => exact ⟨ha, hs.self b⟩
  | head hchild _ ih =>
      obtain ⟨hgood, hinside⟩ := ih (hs.step _ _ ha hchild)
      exact ⟨hgood, hs.child _ _ _ ha hchild hinside⟩

/-- Nothing is visited twice. -/
theorem nodup_visits (hs : Separates children good key inside) (h : Shrinks children weight)
    {stack : List α} (hgood : ∀ a ∈ stack, good a)
    (hstack : stack.Pairwise fun b c => ∀ k, inside b k → ¬inside c k) :
    ((visits h stack).map key).Nodup := by
  induction stack using visits.induct h with
  | case1 =>
      rw [visits]
      exact List.nodup_nil
  | case2 a stack ih =>
      rw [List.forall_mem_cons] at hgood
      rw [List.pairwise_cons] at hstack
      have hsymm : ∀ b c : α, (∀ k, inside b k → ¬inside c k) → ∀ k, inside c k → ¬inside b k :=
        fun b c hbc k hc hb => hbc k hb hc
      rw [visits, List.map_cons, List.nodup_cons]
      refine ⟨fun hmem => ?_, ih ?_ ?_⟩
      · obtain ⟨x, hx, hkey⟩ := List.mem_map.mp hmem
        obtain ⟨b, hb, hleads⟩ := mem_visits.mp hx
        rcases List.mem_append.mp hb with hb | hb
        · rw [List.mem_reverse] at hb
          have hinside := (hs.leads (hs.step a b hgood.1 hb) hleads).2
          exact hs.proper a b hgood.1 hb (hkey ▸ hinside)
        · have hinside := (hs.leads (hgood.2 b hb) hleads).2
          exact hstack.1 b hb (key a) (hs.self a) (hkey ▸ hinside)
      · rw [List.forall_mem_append]
        exact ⟨fun b hb => hs.step a b hgood.1 (List.mem_reverse.mp hb), hgood.2⟩
      · rw [List.pairwise_append, List.pairwise_reverse]
        refine ⟨(hs.disjoint a hgood.1).imp fun hbc => hsymm _ _ hbc, hstack.2, ?_⟩
        intro b hb c hc k hinside
        exact hstack.1 c hc k (hs.child a b k hgood.1 (List.mem_reverse.mp hb) hinside)

end Separates

end StackWalk
