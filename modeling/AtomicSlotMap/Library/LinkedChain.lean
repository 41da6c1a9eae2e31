import Mathlib.Data.List.Basic
import Mathlib.Data.List.Nodup

/-! Singly linked chains: the cells reached from a head through a successor function, up to
a stop mark.
-/

namespace Library

variable {α : Type*}

/-- The cells from `head` through `next` to the mark `stop` are those of the list, in order. -/
def Chain (next : α → α) (stop : α) : α → List α → Prop
  | head, [] => head = stop
  | head, cell :: rest => head = cell ∧ head ≠ stop ∧ Chain next stop (next head) rest

variable {next next' : α → α} {stop head : α} {cells cells' : List α}

/-- A chain that starts at the mark is empty, by the two shapes of chains. -/
theorem Chain.nil_of_stop (chain : Chain next stop stop cells) : cells = [] := by
  cases cells with
  | nil => rfl
  | cons cell rest => exact absurd rfl chain.2.1

/-- A chain that does not start at the mark starts with its head. -/
theorem Chain.exists_rest (chain : Chain next stop head cells) (more : head ≠ stop)
    : ∃ rest, cells = head :: rest ∧ Chain next stop (next head) rest := by
  cases cells with
  | nil => exact absurd chain more
  | cons cell rest =>
      obtain ⟨rfl, _, tail⟩ := chain
      exact ⟨rest, rfl, tail⟩

/-- The head of a chain is the mark or a cell. -/
theorem Chain.head_eq_or_mem (chain : Chain next stop head cells)
    : head = stop ∨ head ∈ cells := by
  cases cells with
  | nil => exact Or.inl chain
  | cons cell rest => exact Or.inr (chain.1 ▸ List.mem_cons_self)

/-- Only the successors of the cells themselves matter, by induction on the chain. -/
theorem Chain.congr (chain : Chain next stop head cells)
    (same : ∀ cell ∈ cells, next' cell = next cell)
    : Chain next' stop head cells := by
  induction cells generalizing head with
  | nil => exact chain
  | cons cell rest ih =>
      obtain ⟨rfl, apart, tail⟩ := chain
      refine ⟨rfl, apart, ?_⟩
      rw [same head List.mem_cons_self]
      exact ih tail fun other member => same other (List.mem_cons_of_mem _ member)

/-- A cell that points to the head extends the chain. -/
theorem Chain.push {cell : α} (chain : Chain next stop head cells) (apart : cell ≠ stop)
    (points : next cell = head)
    : Chain next stop cell (cell :: cells) :=
  ⟨rfl, apart, points ▸ chain⟩

/-- The head and the successors determine the chain, by induction on it. -/
theorem Chain.unique (chain : Chain next stop head cells)
    (chain' : Chain next stop head cells')
    : cells = cells' := by
  induction cells generalizing head cells' with
  | nil =>
      have atStop : head = stop := chain
      subst atStop
      exact chain'.nil_of_stop.symm
  | cons cell rest ih =>
      obtain ⟨rfl, apart, tail⟩ := chain
      obtain ⟨rest', rfl, tail'⟩ := chain'.exists_rest apart
      rw [ih tail tail']

end Library
