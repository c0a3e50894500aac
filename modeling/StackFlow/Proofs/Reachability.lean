import Mathlib.Logic.Relation
import StackFlow.Graph

/-!
# Reachability and cycles

`Graph.Reach` is reachability along edges in zero or more steps and `Graph.OnCycle` in one or more
steps back to the block itself. Both are stated by the successors of blocks alone, so that they do
not depend on how a search marks what it has met.
-/

namespace StackFlow.Graph

/-- There is an edge from `m` to `n`. -/
def Adj (g : Graph) (m n : BlockId) : Prop := n ∈ g.successors m

/-- A walk along edges leads from `m` to `n`. -/
def Reach (g : Graph) (m n : BlockId) : Prop := Relation.ReflTransGen g.Adj m n

/-- A walk along at least one edge leads from `n` back to `n`. -/
def OnCycle (g : Graph) (n : BlockId) : Prop := Relation.TransGen g.Adj n n

/-- There is an edge from `m` to `n` that is not in the list. -/
def AdjExcept (g : Graph) (es : List Edge) (m n : BlockId) : Prop := g.Adj m n ∧ Edge.mk m n ∉ es

/-- What is closed under successors holds of all that is reached. -/
theorem Reach.closed {g : Graph} {p : BlockId → Prop} (hp : ∀ m n, p m → g.Adj m n → p n)
    {m n : BlockId} (h : g.Reach m n) (hm : p m) : p n := by
  induction h with
  | refl => exact hm
  | tail _ hadj ih => exact hp _ _ ih hadj

/-- A block from which every walk ends is on no cycle. -/
theorem not_transGen_self_of_acc {r : BlockId → BlockId → Prop} {n : BlockId}
    (h : Acc (fun t m => r m t) n) : ¬ Relation.TransGen r n n := by
  induction h with
  | intro n _ ih =>
    intro hcycle
    -- the block after the first step is on the same cycle
    obtain ⟨m, hnm, hmn⟩ := Relation.TransGen.head'_iff.1 hcycle
    exact ih m hnm (Relation.TransGen.tail' hmn hnm)

end StackFlow.Graph
