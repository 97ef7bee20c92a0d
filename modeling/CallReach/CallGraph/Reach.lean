import CallReach.CallGraph.Basic

/-!
# Nodes reached in a call graph

A queue of nodes to visit, first in first out, over edges of every kind.  Nodes
with the same id count as one.  The search ends because every visited node uses
up its edges: the measure is the number of edges that start at a node not yet
visited, and then the length of the queue.
-/

namespace CallReach.CallGraph

/-- Whether a node of the same id is in a list. -/
def containsId (g : CallGraph) (visited : List NodeId) (n : NodeId) : Bool :=
  visited.any fun v => g.idOf v = g.idOf n

/-- The edges that start at a node not yet visited. -/
def openEdges (g : CallGraph) (visited : List NodeId) : List Edge :=
  g.edges.toList.filter fun edge => !visited.contains edge.caller

theorem openEdges_append (g : CallGraph) (visited : List NodeId) (n : NodeId) :
    g.openEdges (visited ++ [n]) =
      (g.openEdges visited).filter fun edge => edge.caller ≠ n := by
  simp only [openEdges, List.filter_filter]
  refine List.filter_congr fun edge _ => ?_
  by_cases h : edge.caller = n <;> simp [h]

/-- A visit leaves no more open edges than there were. -/
theorem openEdges_append_length_le (g : CallGraph) (visited : List NodeId) (n : NodeId) :
    (g.openEdges (visited ++ [n])).length ≤ (g.openEdges visited).length := by
  rw [openEdges_append]
  exact List.length_filter_le _ _

/-- The visit of a new node that calls something leaves fewer open edges. -/
theorem openEdges_append_length_lt {g : CallGraph} {visited : List NodeId} {n : NodeId}
    (hnew : n ∉ visited) (hcalls : g.callees n ≠ []) :
    (g.openEdges (visited ++ [n])).length < (g.openEdges visited).length := by
  rw [openEdges_append, List.length_filter_lt_length_iff_exists]
  obtain ⟨callee, hcallee⟩ := List.exists_mem_of_ne_nil _ hcalls
  obtain ⟨edge, hedge, -⟩ := List.mem_map.1 hcallee
  simp only [outEdges, List.mem_filter, decide_eq_true_eq] at hedge
  refine ⟨edge, ?_, by simp [hedge.2]⟩
  simp [openEdges, hedge.1, hedge.2, hnew]

/-- The nodes visited so far and all that are found from a queue. -/
def visitAll (g : CallGraph) (visited : List NodeId) : List NodeId → List NodeId
  | [] => visited
  | n :: queue =>
      if g.containsId visited n then visitAll g visited queue
      else visitAll g (visited ++ [n]) (queue ++ g.callees n)
termination_by queue => ((g.openEdges visited).length, queue.length)
decreasing_by
  · exact Prod.Lex.right _ (by simp)
  · rename_i hnew
    have hnot : n ∉ visited := fun hmem =>
      hnew (List.any_eq_true.2 ⟨n, hmem, by simp⟩)
    by_cases hcalls : g.callees n = []
    · rcases Nat.lt_or_eq_of_le (g.openEdges_append_length_le visited n) with hlt | heq
      · exact Prod.Lex.left _ _ hlt
      · rw [heq, hcalls]
        exact Prod.Lex.right _ (by simp)
    · exact Prod.Lex.left _ _ (openEdges_append_length_lt hnot hcalls)

/-- The nodes that can be reached from a node, itself left out. -/
def reachedFrom (g : CallGraph) (n : NodeId) : List NodeId :=
  (g.visitAll [] [n]).filter fun v => g.idOf v ≠ g.idOf n

end CallReach.CallGraph
