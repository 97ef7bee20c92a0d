import CallReach.CallGraph.Reach
import CallReach.Proofs.CallGraph.Components

/-!
# The search over all edges is exact

The search takes nodes off a queue and puts their callees at its end.  At every
moment the callees of a visited node are visited or wait, so when the queue is
empty the visited nodes are closed under calls (`visitAll_closed`), and nothing
is visited that the queue does not lead to (`visitAll_subset`).  In a tidy graph
nodes are told apart by their ids, and `mem_reachedFrom_iff` reads the search as
paths.

A node may wait in the queue many times, so the length of the queue says nothing
about the end of a search.  `Searches` follows it round by round, and
`searches_visitAll` counts the rounds: every edge is used up once.
-/

namespace CallReach.CallGraph

variable {g : CallGraph} {n v : NodeId} {visited queue : List NodeId}

/-- In a tidy graph a node is in a list as soon as its id is. -/
theorem Tidy.containsId_iff (hg : g.Tidy) (hvisited : visited ⊆ g.members)
    (hn : n ∈ g.members) : g.containsId visited n = true ↔ n ∈ visited := by
  rw [containsId, List.any_eq_true]
  constructor
  · rintro ⟨v, hv, hid⟩
    rwa [← hg.eq_of_idOf_eq (hvisited hv) hn (by simpa using hid)]
  · intro h
    exact ⟨n, h, by simp⟩

theorem mem_callees_iff : v ∈ g.callees n ↔
    ∃ edge ∈ g.edges.toList, edge.caller = n ∧ edge.callee = v := by
  simp [callees, outEdges, and_assoc]

/-- A search visits nothing outside a set that has its queue and with every
member its callees. -/
theorem visitAll_subset {S : Set NodeId} (hqueue : ∀ v ∈ queue, v ∈ S)
    (hclosed : ∀ v ∈ S, ∀ w ∈ g.callees v, w ∈ S) :
    ∀ v ∈ g.visitAll visited queue, v ∈ visited ∨ v ∈ S := by
  fun_induction visitAll g visited queue with
  | case1 visited => exact fun v hv => .inl hv
  | case2 visited n queue hold ih => exact ih fun v hv => hqueue v (List.mem_cons_of_mem _ hv)
  | case3 visited n queue hnew ih =>
    have hn : n ∈ S := hqueue n List.mem_cons_self
    have hnext : ∀ v ∈ queue ++ g.callees n, v ∈ S := by
      intro v hv
      rcases List.mem_append.1 hv with hwaits | hcallee
      · exact hqueue v (List.mem_cons_of_mem _ hwaits)
      · exact hclosed n hn v hcallee
    intro v hv
    rcases ih hnext v hv with hvisited | hS
    · rcases List.mem_append.1 hvisited with hold | hlast
      · exact .inl hold
      · exact .inr (List.mem_singleton.1 hlast ▸ hn)
    · exact .inr hS

/-- A search ends with a set that has its queue and is closed under calls. -/
theorem visitAll_closed (hg : g.Tidy) (hvisited : visited ⊆ g.members)
    (hqueue : queue ⊆ g.members)
    (hcallees : ∀ v ∈ visited, ∀ w ∈ g.callees v, w ∈ visited ++ queue) :
    visited ++ queue ⊆ g.visitAll visited queue ∧
      ∀ v ∈ g.visitAll visited queue, ∀ w ∈ g.callees v, w ∈ g.visitAll visited queue := by
  fun_induction visitAll g visited queue with
  | case1 visited => simpa using hcallees
  | case2 visited n queue hold ih =>
    obtain ⟨hn, hrest⟩ := List.cons_subset.1 hqueue
    have hmem : n ∈ visited := (hg.containsId_iff hvisited hn).1 hold
    -- The node is dropped from the queue, but it is visited already.
    have hdrop : visited ++ n :: queue ⊆ visited ++ queue := by
      intro v hv
      rcases List.mem_append.1 hv with hleft | hright
      · exact List.mem_append_left _ hleft
      · rcases List.mem_cons.1 hright with rfl | hlater
        · exact List.mem_append_left _ hmem
        · exact List.mem_append_right _ hlater
    obtain ⟨hsubset, hclosed⟩ :=
      ih hvisited hrest fun v hv w hw => hdrop (hcallees v hv w hw)
    exact ⟨List.Subset.trans hdrop hsubset, hclosed⟩
  | case3 visited n queue hnew ih =>
    obtain ⟨hn, hrest⟩ := List.cons_subset.1 hqueue
    have hmove : visited ++ n :: queue ⊆ visited ++ [n] ++ (queue ++ g.callees n) := by
      intro v hv
      simp only [List.mem_append, List.mem_cons] at hv ⊢
      tauto
    obtain ⟨hsubset, hclosed⟩ := ih
      (List.append_subset.2 ⟨hvisited, by simpa using hn⟩)
      (List.append_subset.2 ⟨hrest, fun _ => Components.mem_members_of_mem_callees hg⟩) (by
        intro v hv w hw
        rcases List.mem_append.1 hv with hold | hlast
        · exact hmove (hcallees v hold w hw)
        · rw [List.mem_singleton.1 hlast] at hw
          exact List.mem_append_right _ (List.mem_append_right _ hw))
    exact ⟨List.Subset.trans hmove hsubset, hclosed⟩

/-- The search from a node of a tidy graph finds the other nodes that calls lead
to, and no others. -/
theorem Tidy.mem_reachedFrom_iff (hg : g.Tidy) (hn : n ∈ g.members) :
    v ∈ g.reachedFrom n ↔ v ≠ n ∧ g.Reaches n v := by
  obtain ⟨hsubset, hclosed⟩ := visitAll_closed hg (List.nil_subset _)
    (show [n] ⊆ g.members by simpa using hn) (by simp)
  have hvisit : v ∈ g.visitAll [] [n] ↔ g.Reaches n v := by
    constructor
    · intro hv
      simpa using visitAll_subset (S := {w | g.Reaches n w})
        (fun w hw => List.mem_singleton.1 hw ▸ .refl) (fun u hu w hw => .tail hu hw) v hv
    · intro hpath
      induction hpath with
      | refl => exact hsubset (by simp)
      | tail _ hcall ih => exact hclosed _ ih _ hcall
  rw [reachedFrom, List.mem_filter, hvisit, decide_eq_true_iff, and_comm]
  refine and_congr_left fun hpath => not_congr ?_
  have hv : v ∈ g.members := by
    rcases Relation.ReflTransGen.cases_tail hpath with rfl | ⟨u, -, hcall⟩
    · exact hn
    · exact Components.mem_members_of_mem_callees hg hcall
  exact ⟨hg.eq_of_idOf_eq hv hn, fun heq => heq ▸ rfl⟩

/-! ## The rounds of a search -/

/-- A search comes to an end: from the nodes visited so far and a queue, after a
number of rounds, with the nodes that are visited then.  Each round takes one
node off the queue. -/
inductive Searches (g : CallGraph) : List NodeId → List NodeId → Nat → List NodeId → Prop where
  | done (visited : List NodeId) : Searches g visited [] 0 visited
  | drop {visited queue found : List NodeId} {n : NodeId} {rounds : Nat}
      (hold : g.containsId visited n = true) (hrest : Searches g visited queue rounds found) :
      Searches g visited (n :: queue) (rounds + 1) found
  | visit {visited queue found : List NodeId} {n : NodeId} {rounds : Nat}
      (hnew : g.containsId visited n = false)
      (hrest : Searches g (visited ++ [n]) (queue ++ g.callees n) rounds found) :
      Searches g visited (n :: queue) (rounds + 1) found

theorem not_mem_of_containsId_eq_false (h : g.containsId visited n = false) : n ∉ visited := by
  intro hmem
  simp only [containsId, List.any_eq_false, decide_eq_true_eq] at h
  exact h n hmem rfl

/-- A visit uses up the edges of the node. -/
theorem length_openEdges_append (h : n ∉ visited) :
    (g.openEdges (visited ++ [n])).length + (g.callees n).length =
      (g.openEdges visited).length := by
  have hout : g.outEdges n = (g.openEdges visited).filter fun edge => edge.caller = n := by
    rw [outEdges, openEdges, List.filter_filter]
    refine List.filter_congr fun edge _ => ?_
    by_cases hcaller : edge.caller = n <;> simp [hcaller, h]
  rw [callees, List.length_map, hout, openEdges_append, ← List.countP_eq_length_filter,
    ← List.countP_eq_length_filter,
    List.length_eq_countP_add_countP fun edge : Edge => edge.caller ≠ n]
  simp

/-- A search ends.  Each node of its queue and each edge that it uses up is worth
one round. -/
theorem searches_visitAll (g : CallGraph) (visited queue : List NodeId) :
    ∃ rounds, g.Searches visited queue rounds (g.visitAll visited queue) ∧
      rounds + (g.openEdges (g.visitAll visited queue)).length =
        queue.length + (g.openEdges visited).length := by
  fun_induction visitAll g visited queue with
  | case1 visited => exact ⟨0, .done visited, rfl⟩
  | case2 visited n queue hold ih =>
    obtain ⟨rounds, hsearch, hcount⟩ := ih
    refine ⟨rounds + 1, .drop hold hsearch, ?_⟩
    rw [List.length_cons]
    omega
  | case3 visited n queue hnew ih =>
    obtain ⟨rounds, hsearch, hcount⟩ := ih
    have hfresh : g.containsId visited n = false := by simpa using hnew
    have hused := g.length_openEdges_append (not_mem_of_containsId_eq_false hfresh)
    refine ⟨rounds + 1, .visit hfresh hsearch, ?_⟩
    rw [List.length_append] at hcount
    rw [List.length_cons]
    omega

/-- What was visited stays so, in front, and nothing is visited twice. -/
theorem nodup_visitAll (g : CallGraph) (queue : List NodeId) (hvisited : visited.Nodup) :
    visited <+: g.visitAll visited queue ∧ (g.visitAll visited queue).Nodup := by
  fun_induction visitAll g visited queue with
  | case1 visited => exact ⟨List.prefix_refl _, hvisited⟩
  | case2 visited n queue hold ih => exact ih hvisited
  | case3 visited n queue hnew ih =>
    have hfresh : n ∉ visited := not_mem_of_containsId_eq_false (by simpa using hnew)
    have hlonger : (visited ++ [n]).Nodup := by
      rw [← List.concat_eq_append]
      exact hvisited.concat hfresh
    obtain ⟨hfront, hnodup⟩ := ih hlonger
    exact ⟨(List.prefix_append visited [n]).trans hfront, hnodup⟩

/-- The search from a node of a tidy graph visits that node first, and then what
it reports. -/
theorem Tidy.visitAll_eq_cons (hg : g.Tidy) (hn : n ∈ g.members) :
    g.visitAll [] [n] = n :: g.reachedFrom n := by
  obtain ⟨⟨rest, hrest⟩, hnodup⟩ := g.nodup_visitAll (g.callees n) (List.nodup_singleton n)
  have hvisit : g.visitAll [] [n] = n :: rest := by
    rw [visitAll, if_neg (by simp [containsId])]
    exact hrest.symm
  have hother : ∀ v ∈ rest, g.idOf v ≠ g.idOf n := by
    intro v hv hid
    have hmember : v ∈ g.members := by
      refine (visitAll_subset (S := {w | w ∈ g.members})
        (show ∀ w ∈ [n], w ∈ g.members by simpa using hn)
        (fun u _ w hw => Components.mem_members_of_mem_callees hg hw) v ?_).resolve_left
          List.not_mem_nil
      rw [hvisit]
      exact List.mem_cons_of_mem n hv
    rw [← hrest, List.singleton_append, List.nodup_cons] at hnodup
    exact hnodup.1 (hg.eq_of_idOf_eq hmember hn hid ▸ hv)
  rw [reachedFrom, hvisit, List.filter_cons_of_neg (by simp),
    List.filter_eq_self.2 fun v hv => decide_eq_true (hother v hv)]

/-- A path that ends elsewhere has an edge. -/
theorem reaches_iff_transGen (hne : v ≠ n) :
    g.Reaches n v ↔
      Relation.TransGen (fun u w => ∃ edge ∈ g.outEdges u, edge.callee = w) n v := by
  have hstep : (fun u w => w ∈ g.callees u) =
      fun u w => ∃ edge ∈ g.outEdges u, edge.callee = w := by
    funext u w
    simp [callees]
  rw [Reaches, Relation.reflTransGen_iff_eq_or_transGen, hstep]
  exact or_iff_right hne

/-- The search from a node of a call graph ends, after one round and one more for
each edge that starts at a node that it visits.  It reports, each once, the other
nodes at the end of a path of one or more edges of any kind. -/
theorem Grown.searches_reachedFrom (hgrown : g.Grown) (hn : n ∈ g.members) :
    g.Searches [] [n]
        (1 + g.edges.toList.countP fun edge => edge.caller ∈ n :: g.reachedFrom n)
        (n :: g.reachedFrom n) ∧
      (g.reachedFrom n).Nodup ∧
      ∀ v, v ∈ g.reachedFrom n ↔ v ≠ n ∧
        Relation.TransGen (fun u w => ∃ edge ∈ g.outEdges u, edge.callee = w) n v := by
  have hg := hgrown.tidy
  have hvisit := hg.visitAll_eq_cons hn
  refine ⟨?_, ?_, fun v => ?_⟩
  · obtain ⟨rounds, hsearch, hcount⟩ := g.searches_visitAll [] [n]
    rw [hvisit] at hsearch hcount
    have hused := g.edges.toList.length_eq_countP_add_countP fun edge : Edge =>
      edge.caller ∈ n :: g.reachedFrom n
    have hopen : (g.openEdges (n :: g.reachedFrom n)).length =
        g.edges.toList.countP fun edge => ¬edge.caller ∈ n :: g.reachedFrom n := by
      simp [openEdges, List.countP_eq_length_filter]
    have hall : (g.openEdges []).length = g.edges.toList.length := by simp [openEdges]
    rw [hopen, hall, List.length_singleton] at hcount
    obtain rfl : rounds =
        1 + g.edges.toList.countP fun edge => edge.caller ∈ n :: g.reachedFrom n := by
      simp only [decide_eq_true_eq] at hused
      omega
    exact hsearch
  · have hnodup := (g.nodup_visitAll [n] List.nodup_nil).2
    rw [hvisit] at hnodup
    exact hnodup.of_cons
  · rw [hg.mem_reachedFrom_iff hn]
    exact and_congr_right fun hne => reaches_iff_transGen hne

/-- From `main` the search visits `step`, `log` and `onDone`.  Calls lead back from
`step` to `main` and twice from `onDone` to `step`, so three of its seven rounds
drop a node. -/
theorem Grown.searches_reachedFrom_relay :
    relayGraph.reachedFrom ⟨1⟩ = [⟨2⟩, ⟨3⟩, ⟨5⟩] ∧
      relayGraph.Searches [] [⟨1⟩] 7 [⟨1⟩, ⟨2⟩, ⟨3⟩, ⟨5⟩] ∧
      ¬Relation.TransGen (fun u w => ∃ edge ∈ relayGraph.outEdges u, edge.callee = w) ⟨1⟩ ⟨4⟩ := by
  have hfound : relayGraph.reachedFrom ⟨1⟩ = [⟨2⟩, ⟨3⟩, ⟨5⟩] := by cbv
  obtain ⟨hsearch, -, hpaths⟩ := grown_relayGraph.searches_reachedFrom (n := ⟨1⟩) (by decide)
  have hrounds : (relayGraph.edges.toList.countP fun edge =>
      edge.caller ∈ (⟨1⟩ :: relayGraph.reachedFrom ⟨1⟩ : List NodeId)) = 6 := by
    rw [hfound]
    decide
  rw [hrounds, hfound] at hsearch
  refine ⟨hfound, hsearch, fun hpath => ?_⟩
  have hmem := (hpaths ⟨4⟩).2 ⟨by decide, hpath⟩
  rw [hfound] at hmem
  revert hmem
  decide

end CallReach.CallGraph
