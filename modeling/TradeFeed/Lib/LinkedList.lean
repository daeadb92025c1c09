import Mathlib.Data.List.Basic
import Mathlib.Data.List.Nodup

/-!
# Doubly linked lists in a memory

A doubly linked list is kept in a memory of nodes, each with a `next` and a
`prev` pointer, and a `head` and a `tail` pointer outside. `Linked` says that
the pointers describe a given list of nodes. The two operations of an intrusive
list are proved for it: a node is pushed at the end (`Linked.push`), and a node
is removed from anywhere, its neighbours joined (`Linked.remove`). Both are
stated by what the pointers of the nodes are afterwards, not by how a program
writes them, so that any order of writes can be shown to do it.

`walk` follows the `next` pointers; in a linked list it finds exactly the nodes
(`Linked.walk_eq`).
-/

namespace TradeFeed.Lib

variable {α : Type*}

/-- The pointers describe the list of nodes `q`: `head` and `tail` are its ends,
and each node points back to the node before it and on to the node after it. -/
structure Linked (next prev : α → Option α) (head tail : Option α) (q : List α) : Prop where
  /-- The first node. -/
  head_eq : head = q.head?
  /-- The last node. -/
  tail_eq : tail = q.getLast?
  /-- The neighbours of each node. -/
  node : ∀ l₁ a l₂, q = l₁ ++ a :: l₂ → prev a = l₁.getLast? ∧ next a = l₂.head?

namespace Linked

variable {next prev next' prev' : α → Option α} {head tail : Option α} {q : List α}

theorem nil (next prev : α → Option α) : Linked next prev none none [] where
  head_eq := rfl
  tail_eq := rfl
  node := by simp

/-- Only the pointers of the list's own nodes matter. -/
theorem congr (h : Linked next prev head tail q) (hn : ∀ a ∈ q, next' a = next a)
    (hp : ∀ a ∈ q, prev' a = prev a) : Linked next' prev' head tail q where
  head_eq := h.head_eq
  tail_eq := h.tail_eq
  node := by
    rintro l₁ a l₂ rfl
    rw [hn a (by simp), hp a (by simp)]
    exact h.node l₁ a l₂ rfl

/-- **Push**: the new node is linked after the old tail. -/
theorem push [DecidableEq α] (h : Linked next prev head tail q) {a : α} (hq : (q ++ [a]).Nodup)
    (hn : ∀ c ∈ q, next' c = if q.getLast? = some c then some a else next c) (hna : next' a = none)
    (hp : ∀ c ∈ q, prev' c = prev c) (hpa : prev' a = q.getLast?) :
    Linked next' prev' (q ++ [a]).head? (some a) (q ++ [a]) where
  head_eq := rfl
  tail_eq := by simp
  node := by
    intro l₁ c l₂ he
    rcases l₂.eq_nil_or_concat with rfl | ⟨l₂, b, rfl⟩
    · obtain ⟨rfl, rfl⟩ : q = l₁ ∧ a = c := by simpa using List.append_inj' he rfl
      exact ⟨hpa, hna⟩
    · -- `c` is an old node; it is the old tail exactly when nothing but `a` follows it
      obtain ⟨rfl, rfl⟩ : q = l₁ ++ c :: l₂ ∧ a = b := by
        rw [List.concat_eq_append, ← List.cons_append, ← List.append_assoc] at he
        simpa using List.append_inj' he rfl
      obtain ⟨hpc, hnc⟩ := h.node l₁ c l₂ rfl
      rw [hn c (by simp), hp c (by simp)]
      refine ⟨hpc, ?_⟩
      cases l₂ with
      | nil => simp
      | cons d l₂ =>
        have hc : c ∉ d :: l₂ := by
          have := (List.nodup_append.mp (List.nodup_append.mp hq).1).2.1
          exact (List.nodup_cons.mp this).1
        rw [if_neg]
        · simpa using hnc
        · intro hl
          rw [List.getLast?_append_cons, List.getLast?_cons_cons] at hl
          exact hc (List.mem_of_getLast? hl)

/-- **Remove**: the neighbours of the removed node are joined. -/
theorem remove [DecidableEq α] {l₁ l₂ : List α} {a : α}
    (h : Linked next prev head tail (l₁ ++ a :: l₂)) (hq : (l₁ ++ a :: l₂).Nodup)
    (hn : ∀ c ∈ l₁ ++ l₂, next' c = if l₁.getLast? = some c then l₂.head? else next c)
    (hp : ∀ c ∈ l₁ ++ l₂, prev' c = if l₂.head? = some c then l₁.getLast? else prev c) :
    Linked next' prev' (l₁ ++ l₂).head? (l₁ ++ l₂).getLast? (l₁ ++ l₂) where
  head_eq := rfl
  tail_eq := rfl
  node := by
    obtain ⟨-, hq₂, hd⟩ := List.nodup_append.mp hq
    have hdisj : ∀ c ∈ l₁, c ∉ l₂ := fun c h₁ h₂ => hd c h₁ c (by simp [h₂]) rfl
    -- the nodes after the removed one
    have after : ∀ k₁ c k₂, l₂ = k₁ ++ c :: k₂ →
        prev' c = (l₁ ++ k₁).getLast? ∧ next' c = k₂.head? := by
      rintro k₁ c k₂ rfl
      obtain ⟨hpc, hnc⟩ := h.node (l₁ ++ a :: k₁) c k₂ (by simp)
      have hl : l₁.getLast? ≠ some c := fun hl => hdisj c (List.mem_of_getLast? hl) (by simp)
      rw [hn c (by simp), hp c (by simp), if_neg hl]
      refine ⟨?_, hnc⟩
      cases k₁ with
      | nil => simp
      | cons d k₁ =>
        have hdc : d ≠ c := by
          rintro rfl
          simp at hq₂
        rw [if_neg (by simpa using hdc), hpc]
        simp [List.getLast?_append]
    intro k₁ c k₂ he
    rcases List.append_eq_append_iff.mp he with ⟨as, rfl, h₂⟩ | ⟨bs, h₁, h₂⟩
    · exact after as c k₂ h₂
    · cases bs with
      | nil =>
        obtain rfl : l₁ = k₁ := by simpa using h₁
        simpa using after [] c k₂ (by simpa using h₂.symm)
      | cons d bs =>
        -- the nodes before it
        obtain ⟨rfl, rfl⟩ : c = d ∧ k₂ = bs ++ l₂ := by simpa using h₂
        subst h₁
        obtain ⟨hpc, hnc⟩ := h.node k₁ c (bs ++ a :: l₂) (by simp)
        have hl : l₂.head? ≠ some c := fun hl => hdisj c (by simp) (List.mem_of_head? hl)
        rw [hn c (by simp), hp c (by simp), if_neg hl]
        refine ⟨hpc, ?_⟩
        cases bs with
        | nil => simp
        | cons e bs =>
          have hc : c ∉ e :: bs := by
            have := (List.nodup_append.mp (List.nodup_append.mp hq).1).2.1
            exact (List.nodup_cons.mp this).1
          rw [if_neg]
          · simpa using hnc
          · intro hl
            rw [List.getLast?_append_cons, List.getLast?_cons_cons] at hl
            exact hc (List.mem_of_getLast? hl)

end Linked

/-- The nodes found by following `next`, at most `n` of them. -/
def walk (next : α → Option α) : ℕ → Option α → List α
  | 0, _ => []
  | _ + 1, none => []
  | n + 1, some a => a :: walk next n (next a)

/-- Following `next` from the head finds the list. -/
theorem Linked.walk_eq {next prev : α → Option α} {head tail : Option α} {q : List α}
    (h : Linked next prev head tail q) {n : ℕ} (hn : q.length ≤ n) : walk next n head = q := by
  rw [h.head_eq]
  -- from any node on, `walk` finds the rest of the list
  have suffix : ∀ l₂ l₁ n, q = l₁ ++ l₂ → l₂.length ≤ n → walk next n l₂.head? = l₂ := by
    intro l₂
    induction l₂ with
    | nil => intro l₁ n _ _; cases n <;> rfl
    | cons a l₂ ih =>
      intro l₁ n he hn
      cases n with
      | zero => simp at hn
      | succ n =>
        rw [List.head?_cons, walk, (h.node l₁ a l₂ he).2,
          ih (l₁ ++ [a]) n (by simpa using he) (by simpa using hn)]
  exact suffix q [] n rfl hn

end TradeFeed.Lib
