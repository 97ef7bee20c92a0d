import CallReach.CallGraph.Basic

/-!
# Strongly connected components

One depth-first search numbers the nodes in the order of their discovery.  The
nodes whose component is not complete are kept on a stack, and the nodes under
way are kept as frames: each one remembers the callees that it has not looked at
and the least number of a stacked node that was found from it.  A node that gets
back to nothing before itself closes its component, which is the part of the
stack down to that node.  Components come out callees first.

Nodes are told apart by their ids.  The search ends because every discovery uses
up an id, and every other step some callee or frame.
-/

namespace CallReach.CallGraph

/-- The ids that a node can have; one that was never made has the empty id. -/
def ids (g : CallGraph) : List String :=
  "" :: g.nodes.toList.map (·.id)

theorem idOf_mem_ids (g : CallGraph) (n : NodeId) : g.idOf n ∈ g.ids := by
  by_cases h : n.index < g.nodes.size
  · have hnode : g.node n ∈ g.nodes := by simp [node, Array.getD, h]
    exact List.mem_cons_of_mem _ (List.mem_map.2 ⟨g.node n, hnode.val, rfl⟩)
  · simp [idOf, node, ids, Array.getD, h]

namespace Components

/-- A node under way. -/
structure Frame where
  node : NodeId
  number : Nat
  /-- The least number of a stacked node that was found from here. -/
  least : Nat
  /-- The callees that were not looked at. -/
  rest : List NodeId

/-- The state of the search. -/
structure State where
  /-- The numbers of the discovered nodes, by id. -/
  numbers : List (String × Nat)
  /-- The discovered nodes whose component is not complete, last first. -/
  stack : List NodeId
  /-- The complete components, last first. -/
  complete : List (List NodeId)
  /-- The nodes under way, innermost first. -/
  frames : List Frame

namespace State

/-- The state before the search. -/
def start : State := ⟨[], [], [], []⟩

/-- The number of a node, if it was discovered. -/
def number? (s : State) (g : CallGraph) (n : NodeId) : Option Nat :=
  s.numbers.lookup (g.idOf n)

/-- The state after the discovery of a node, which takes the next number and is
under way. -/
def discover (s : State) (g : CallGraph) (n : NodeId) : State :=
  { s with
    numbers := s.numbers ++ [(g.idOf n, s.numbers.length)]
    stack := n :: s.stack
    frames := ⟨n, s.numbers.length, s.numbers.length, g.callees n⟩ :: s.frames }

/-- Whether a node of the same id is on the stack. -/
def isStacked (s : State) (g : CallGraph) (n : NodeId) : Bool :=
  s.stack.any fun v => g.idOf v = g.idOf n

/-- Closes the component of a node: the stack down to that node. -/
def close (s : State) (n : NodeId) : State :=
  { s with
    stack := (s.stack.dropWhile (· ≠ n)).drop 1
    complete := (s.stack.takeWhile (· ≠ n) ++ [n]) :: s.complete }

/-- Hands the least number that was found to the next frame. -/
def handDown (least : Nat) : List Frame → List Frame
  | [] => []
  | f :: below => { f with least := min f.least least } :: below

/-- One step at the innermost node.  A new callee is discovered; a stacked one
gives its number; the others give nothing.  A node without further callees is
done, and the frame below learns what was found. -/
def step (s : State) (g : CallGraph) (top : Frame) (below : List Frame) : State :=
  match top.rest with
  | [] =>
      let done := if top.least = top.number then s.close top.node else s
      { done with frames := handDown top.least below }
  | n :: rest =>
      match s.number? g n with
      | none => { s with frames := { top with rest } :: below }.discover g n
      | some number =>
          let least := if s.isStacked g n then min top.least number else top.least
          { s with frames := { top with rest, least } :: below }

/-! ## The search ends -/

/-- The ids without a number. -/
def unnumbered (s : State) (g : CallGraph) : List String :=
  g.ids.filter fun id => (s.numbers.lookup id).isNone

/-- What the frames have to do: look along their callees, and be done. -/
def work (frames : List Frame) : Nat :=
  (frames.flatMap (·.rest)).length + frames.length

theorem unnumbered_discover_lt {s : State} {g : CallGraph} {n : NodeId}
    (hnew : s.number? g n = none) :
    ((s.discover g n).unnumbered g).length < (s.unnumbered g).length := by
  have hfilter : (s.discover g n).unnumbered g =
      (s.unnumbered g).filter fun id => id ≠ g.idOf n := by
    simp only [unnumbered, discover, List.filter_filter]
    refine List.filter_congr fun id _ => ?_
    by_cases h : id = g.idOf n
    · simp [List.lookup_append, h]
    · have hne : (id == g.idOf n) = false := by simpa using h
      simp [List.lookup_append, List.lookup_cons, h, hne]
  rw [hfilter, List.length_filter_lt_length_iff_exists]
  refine ⟨g.idOf n, ?_, by simp⟩
  rw [number?] at hnew
  simp [unnumbered, g.idOf_mem_ids n, hnew]

theorem work_handDown (least : Nat) (frames : List Frame) :
    work (handDown least frames) = work frames := by
  cases frames <;> rfl

/-- A step discovers a node or leaves less work. -/
theorem step_decreases {s : State} {top : Frame} {below : List Frame}
    (hframes : s.frames = top :: below) (g : CallGraph) :
    Prod.Lex (· < ·) (· < ·)
      (((s.step g top below).unnumbered g).length, work (s.step g top below).frames)
      ((s.unnumbered g).length, work s.frames) := by
  unfold step
  split
  · have hnumbers : (if top.least = top.number then s.close top.node else s).numbers =
        s.numbers := by split <;> rfl
    have hless : work (handDown top.least below) < work s.frames := by
      rw [work_handDown, hframes]
      simp only [work, List.flatMap_cons, List.length_append, List.length_cons]
      omega
    simp only [unnumbered, hnumbers]
    exact Prod.Lex.right _ hless
  · rename_i n rest hrest
    split
    · rename_i hnew
      exact Prod.Lex.left _ _ (unnumbered_discover_lt hnew)
    · refine Prod.Lex.right _ ?_
      rw [hframes]
      simp only [work, List.flatMap_cons, hrest, List.length_append, List.length_cons]
      omega

/-- Steps until no node is under way. -/
def run (s : State) (g : CallGraph) : State :=
  match _hframes : s.frames with
  | [] => s
  | top :: below => (s.step g top below).run g
termination_by ((s.unnumbered g).length, work s.frames)
decreasing_by exact step_decreases _hframes g

/-- Searches from a node of the table unless it was discovered. -/
def visitRoot (g : CallGraph) (s : State) (n : NodeId) : State :=
  if (s.number? g n).isSome then s else (s.discover g n).run g

end State

end Components

/-- The strongly connected components of a graph, callees first. -/
def components (g : CallGraph) : List (List NodeId) :=
  (g.members.foldl (Components.State.visitRoot g) .start).complete.reverse

end CallReach.CallGraph
