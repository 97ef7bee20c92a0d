import Mathlib
import CallReach.CallGraph.Components
import CallReach.Proofs.CallGraph.Growth
import CallReach.Proofs.Model.History

/-!
# Components are the classes of mutual reachability

The invariant of the search for components, and what it says at the end.

* `Threaded` ties the frames to the stack.  Each frame owns a segment of the
  stack that ends with its node, and `Segment` says what is known there: the
  nodes of a segment reach one another, and no call that was looked along gets
  further down the stack than to the least number of the frame.
* `Layered` is what is known about the complete components: each one is strongly
  connected, and its calls stay inside or go to older ones.
* `Invariant` puts the two together.  `Invariant.step` is the step lemma, with
  one lemma for each thing that a step can do: a discovery, a call to a known
  node, and a node that is done, which leaves its segment to the next frame or
  closes its component.  `Invariant.run` and `Invariant.visitRoots` carry it to
  the end.
-/

namespace CallReach.CallGraph

/-- There is a path of calls from one node to another. -/
def Reaches (g : CallGraph) : NodeId → NodeId → Prop :=
  Relation.ReflTransGen fun u w => w ∈ g.callees u

namespace Components

variable {g : CallGraph} {number? later : NodeId → Option Nat} {f top : Frame}
  {frames below : List Frame} {n : NodeId} {k : Nat} {above lower stack : List NodeId}

/-! ## Frames and the stack -/

/-- A call to a node was looked along: the node has a number, and if it is
further down the stack, the least number takes account of it. -/
def Looked (number? : NodeId → Option Nat) (least : Nat) (lower : List NodeId)
    (z : NodeId) : Prop :=
  ∃ k, number? z = some k ∧ (z ∈ lower → least ≤ k)

/-- The segment of a frame: the nodes above its own one, down to the next
segment.  They are done, and only `lower` is further down the stack. -/
structure Segment (g : CallGraph) (number? : NodeId → Option Nat) (f : Frame)
    (above lower : List NodeId) : Prop where
  number : number? f.node = some f.number
  least_le : f.least ≤ f.number
  least : ∃ z ∈ f.node :: lower, number? z = some f.least ∧ g.Reaches f.node z
  above_number : ∀ y ∈ above, ∃ k, number? y = some k ∧ f.number < k
  lower_number : ∀ z ∈ lower, ∃ k, number? z = some k ∧ k < f.number
  connected : ∀ y ∈ above, g.Reaches f.node y ∧ g.Reaches y f.node
  looked_above : ∀ y ∈ above, ∀ z ∈ g.callees y, Looked number? f.least lower z
  looked : ∃ seen, g.callees f.node = seen ++ f.rest ∧
    ∀ z ∈ seen, Looked number? f.least lower z

/-- The stack is made of the segments of the frames, and each frame is there
because of a call in the next one. -/
inductive Threaded (g : CallGraph) (number? : NodeId → Option Nat) :
    List Frame → List NodeId → Prop where
  | nil : Threaded g number? [] []
  | cons {f : Frame} {below : List Frame} {above lower : List NodeId}
      (hsegment : Segment g number? f above lower)
      (hcall : ∀ next ∈ below.head?, f.node ∈ g.callees next.node)
      (hbelow : Threaded g number? below lower) :
      Threaded g number? (f :: below) (above ++ f.node :: lower)

/-- Nodes that have a number keep it. -/
def Keeps (number? later : NodeId → Option Nat) : Prop :=
  ∀ n k, number? n = some k → later n = some k

theorem Keeps.refl (number? : NodeId → Option Nat) : Keeps number? number? :=
  fun _ _ => id

theorem Keeps.trans {last : NodeId → Option Nat} (first : Keeps number? later)
    (second : Keeps later last) : Keeps number? last :=
  fun n k hk => second n k (first n k hk)

theorem Looked.mono (hkeep : Keeps number? later) {least : Nat} {z : NodeId}
    (h : Looked number? least lower z) : Looked later least lower z := by
  obtain ⟨k, hk, hbound⟩ := h
  exact ⟨k, hkeep z k hk, hbound⟩

theorem Looked.weaken {least least' : Nat} (hleast : least' ≤ least) {lower' : List NodeId}
    (hlower : lower' ⊆ lower) {z : NodeId} (h : Looked number? least lower z) :
    Looked number? least' lower' z := by
  obtain ⟨k, hk, hbound⟩ := h
  exact ⟨k, hk, fun hz => Nat.le_trans hleast (hbound (hlower hz))⟩

theorem Segment.mono (hkeep : Keeps number? later)
    (h : Segment g number? f above lower) : Segment g later f above lower where
  number := hkeep _ _ h.number
  least_le := h.least_le
  least := by
    obtain ⟨z, hz, hnumber, hreaches⟩ := h.least
    exact ⟨z, hz, hkeep z _ hnumber, hreaches⟩
  above_number y hy := by
    obtain ⟨k, hk, hlt⟩ := h.above_number y hy
    exact ⟨k, hkeep y k hk, hlt⟩
  lower_number z hz := by
    obtain ⟨k, hk, hlt⟩ := h.lower_number z hz
    exact ⟨k, hkeep z k hk, hlt⟩
  connected := h.connected
  looked_above y hy z hz := (h.looked_above y hy z hz).mono hkeep
  looked := by
    obtain ⟨seen, hcallees, hseen⟩ := h.looked
    exact ⟨seen, hcallees, fun z hz => (hseen z hz).mono hkeep⟩

theorem Threaded.mono (hkeep : Keeps number? later)
    (h : Threaded g number? frames stack) : Threaded g later frames stack := by
  induction h with
  | nil => exact .nil
  | cons hsegment hcall _ ih => exact .cons (hsegment.mono hkeep) hcall ih

/-- Every stacked node reaches the innermost node under way. -/
theorem Threaded.reaches_head (h : Threaded g number? frames stack) :
    ∀ f ∈ frames.head?, ∀ z ∈ stack, g.Reaches z f.node := by
  induction h with
  | nil => simp
  | @cons top below above lower hsegment hcall hbelow ih =>
    intro f hf z hz
    obtain rfl : top = f := by simpa using hf
    rcases List.mem_append.1 hz with habove | htail
    · exact (hsegment.connected z habove).2
    · rcases List.mem_cons.1 htail with rfl | hlower
      · exact .refl
      · -- A node further down reaches the next frame, which calls this one.
        cases below with
        | nil =>
          cases hbelow
          simp at hlower
        | cons next below => exact (ih next rfl z hlower).tail (hcall next rfl)

/-! ### A discovery -/

theorem Threaded.push (h : Threaded g number? frames stack) (hn : number? n = some k)
    (hlower : ∀ z ∈ stack, ∃ j, number? z = some j ∧ j < k)
    (hcall : ∀ next ∈ frames.head?, n ∈ g.callees next.node) :
    Threaded g number? (⟨n, k, k, g.callees n⟩ :: frames) (n :: stack) := by
  have hsegment : Segment g number? ⟨n, k, k, g.callees n⟩ [] stack :=
    { number := hn
      least_le := Nat.le_refl k
      least := ⟨n, List.mem_cons_self, hn, .refl⟩
      above_number := by simp
      lower_number := hlower
      connected := by simp
      looked_above := by simp
      looked := ⟨[], rfl, by simp⟩ }
  exact .cons hsegment hcall h

/-! ### A call to a known node -/

/-- The least number of a frame is lowered when a call is looked along. -/
theorem Segment.look (h : Segment g number? f above lower) {rest : List NodeId}
    (hrest : f.rest = n :: rest) {least : Nat} (hle : least ≤ f.least)
    (hleast : ∃ z ∈ f.node :: lower, number? z = some least ∧ g.Reaches f.node z)
    (hn : Looked number? least lower n) :
    Segment g number? { f with rest, least } above lower where
  number := h.number
  least_le := Nat.le_trans hle h.least_le
  least := hleast
  above_number := h.above_number
  lower_number := h.lower_number
  connected := h.connected
  looked_above y hy z hz := (h.looked_above y hy z hz).weaken hle (List.Subset.refl _)
  looked := by
    obtain ⟨seen, hcallees, hseen⟩ := h.looked
    refine ⟨seen ++ [n], by simp [hcallees, hrest], fun z hz => ?_⟩
    rcases List.mem_append.1 hz with hold | hnew
    · exact (hseen z hold).weaken hle (List.Subset.refl _)
    · rw [List.mem_singleton.1 hnew]
      exact hn

theorem Segment.mem_callees (h : Segment g number? f above lower) {rest : List NodeId}
    (hrest : f.rest = n :: rest) : n ∈ g.callees f.node := by
  obtain ⟨seen, hcallees, -⟩ := h.looked
  simp [hcallees, hrest]

/-- A stacked callee gives its number. -/
theorem Segment.look_stacked (h : Segment g number? f above lower) {rest : List NodeId}
    (hrest : f.rest = n :: rest) (hn : number? n = some k)
    (hstacked : n ∈ above ++ f.node :: lower) :
    Segment g number? { f with rest, least := min f.least k } above lower := by
  refine h.look hrest (Nat.min_le_left _ _) ?_ ⟨k, hn, fun _ => Nat.min_le_right _ _⟩
  by_cases hk : f.least ≤ k
  · rw [Nat.min_eq_left hk]
    exact h.least
  · rw [Nat.min_eq_right (Nat.le_of_not_le hk)]
    refine ⟨n, ?_, hn, .single (h.mem_callees hrest)⟩
    -- The numbers above the frame's node are too large.
    rcases List.mem_append.1 hstacked with habove | htail
    · obtain ⟨j, hj, hlt⟩ := h.above_number n habove
      have heq := Option.some.inj (hn.symm.trans hj)
      have hle := h.least_le
      omega
    · exact htail

/-! ### A node that is done -/

/-- Numbers fall from frame to frame. -/
theorem Segment.number_lt {next : Frame} {between further : List NodeId}
    (htop : Segment g number? top above lower) (hnext : Segment g number? next between further)
    (hmem : next.node ∈ lower) : next.number < top.number := by
  obtain ⟨k, hk, hlt⟩ := htop.lower_number next.node hmem
  have heq := Option.some.inj (hnext.number.symm.trans hk)
  omega

/-- When a node is done, all calls of its segment were looked along. -/
theorem Segment.looked_of_done (h : Segment g number? top above lower) (hrest : top.rest = []) :
    ∀ y ∈ above ++ [top.node], ∀ z ∈ g.callees y, Looked number? top.least lower z := by
  refine List.forall_mem_append.2 ⟨h.looked_above, List.forall_mem_singleton.2 ?_⟩
  obtain ⟨seen, hcallees, hseen⟩ := h.looked
  rw [hcallees, hrest, List.append_nil]
  exact hseen

/-- The least number that is handed down belongs to a node that the next frame
reaches, no higher than that frame's own node. -/
theorem Segment.least_merge {next : Frame} {between : List NodeId}
    (htop : Segment g number? top above (between ++ next.node :: lower))
    (hnext : Segment g number? next between lower) (hcall : top.node ∈ g.callees next.node) :
    ∃ z ∈ next.node :: lower,
      number? z = some (min next.least top.least) ∧ g.Reaches next.node z := by
  by_cases hle : next.least ≤ top.least
  · rw [Nat.min_eq_left hle]
    exact hnext.least
  · rw [Nat.min_eq_right (Nat.le_of_not_le hle)]
    obtain ⟨z, hz, hnumber, hreaches⟩ := htop.least
    refine ⟨z, ?_, hnumber, .head hcall hreaches⟩
    have hdescends := htop.number_lt hnext (by simp)
    have hnextLe := hnext.least_le
    -- The nodes above the next frame's own one have numbers that are too large.
    rcases List.mem_cons.1 hz with rfl | hlower
    · have heq := Option.some.inj (htop.number.symm.trans hnumber)
      omega
    · rcases List.mem_append.1 hlower with hbetween | htail
      · obtain ⟨k, hk, hlt⟩ := hnext.above_number z hbetween
        have heq := Option.some.inj (hnumber.symm.trans hk)
        omega
      · exact htail

/-- The segment of a node that is done and gets back to the next frame becomes
part of the next segment. -/
theorem Segment.merge {next : Frame} {between : List NodeId}
    (htop : Segment g number? top above (between ++ next.node :: lower))
    (hnext : Segment g number? next between lower) (hrest : top.rest = [])
    (hcall : top.node ∈ g.callees next.node) (hback : g.Reaches top.node next.node) :
    Segment g number? { next with least := min next.least top.least }
      (above ++ top.node :: between) lower := by
  have hdescends := htop.number_lt hnext (by simp)
  have hforth : g.Reaches next.node top.node := .single hcall
  have htopLooked : ∀ y ∈ above ++ [top.node], ∀ z ∈ g.callees y,
      Looked number? (min next.least top.least) lower z := fun y hy z hz =>
    (htop.looked_of_done hrest y hy z hz).weaken (Nat.min_le_right _ _) (by simp)
  have hnextLooked : ∀ z, Looked number? next.least lower z →
      Looked number? (min next.least top.least) lower z :=
    fun z hz => hz.weaken (Nat.min_le_left _ _) (List.Subset.refl _)
  rw [List.append_cons]
  exact
    { number := hnext.number
      least_le := Nat.le_trans (Nat.min_le_left _ _) hnext.least_le
      least := htop.least_merge hnext hcall
      above_number := by
        refine List.forall_mem_append.2 ⟨List.forall_mem_append.2 ⟨fun y hy => ?_, ?_⟩,
          hnext.above_number⟩
        · obtain ⟨k, hk, hlt⟩ := htop.above_number y hy
          exact ⟨k, hk, Nat.lt_trans hdescends hlt⟩
        · exact List.forall_mem_singleton.2 ⟨_, htop.number, hdescends⟩
      lower_number := hnext.lower_number
      connected := by
        refine List.forall_mem_append.2 ⟨List.forall_mem_append.2 ⟨fun y hy => ?_, ?_⟩,
          hnext.connected⟩
        · obtain ⟨hto, hfrom⟩ := htop.connected y hy
          exact ⟨hforth.trans hto, hfrom.trans hback⟩
        · exact List.forall_mem_singleton.2 ⟨hforth, hback⟩
      looked_above := List.forall_mem_append.2 ⟨htopLooked, fun y hy z hz =>
        hnextLooked z (hnext.looked_above y hy z hz)⟩
      looked := by
        obtain ⟨seen, hcallees, hseen⟩ := hnext.looked
        exact ⟨seen, hcallees, fun z hz => hnextLooked z (hseen z hz)⟩ }

/-- A node that is done and is not the first of its component leaves its segment
to the next frame. -/
theorem Threaded.merge (h : Threaded g number? (top :: below) stack) (hrest : top.rest = [])
    (hopen : top.least ≠ top.number) :
    Threaded g number? (State.handDown top.least below) stack := by
  cases h with
  | @cons _ _ above lower hsegment hcall hbelow =>
    -- The least number belongs to a node further down, so there is a next frame.
    obtain ⟨z, hz, hnumber, hreaches⟩ := hsegment.least
    have hlower : z ∈ lower := by
      rcases List.mem_cons.1 hz with rfl | hlower
      · exact absurd (Option.some.inj (hnumber.symm.trans hsegment.number)) hopen
      · exact hlower
    cases hbelow with
    | nil => simp at hlower
    | @cons next below between lower hnext hnextCall hbelow =>
      have hback : g.Reaches z next.node :=
        (Threaded.cons hnext hnextCall hbelow).reaches_head next rfl z hlower
      have hmerged := hsegment.merge hnext hrest (hcall next rfl) (hreaches.trans hback)
      rw [← List.cons_append, ← List.append_assoc]
      exact .cons hmerged hnextCall hbelow

/-- A node that is the first of its component has nothing to hand down. -/
theorem Segment.handDown_eq (hsegment : Segment g number? top above lower)
    (hbelow : Threaded g number? below lower) (hclosed : top.least = top.number) :
    State.handDown top.least below = below := by
  cases hbelow with
  | nil => rfl
  | @cons next below between lower hnext _ _ =>
    have hdescends := hsegment.number_lt hnext (by simp)
    have hle := hnext.least_le
    rw [State.handDown, Nat.min_eq_left (by omega)]

/-- The calls of a closed segment stay inside or go to nodes that are not on the
stack. -/
theorem Segment.callees_of_closed (h : Segment g number? top above lower)
    (hrest : top.rest = []) (hclosed : top.least = top.number) :
    ∀ y ∈ above ++ [top.node], ∀ z ∈ g.callees y, (∃ k, number? z = some k) ∧ z ∉ lower := by
  intro y hy z hz
  obtain ⟨k, hk, hbound⟩ := h.looked_of_done hrest y hy z hz
  refine ⟨⟨k, hk⟩, fun hlower => ?_⟩
  obtain ⟨j, hj, hlt⟩ := h.lower_number z hlower
  have heq := Option.some.inj (hk.symm.trans hj)
  have hle := hbound hlower
  omega

/-! ## Complete components -/

/-- Components, the last one first: each one is strongly connected, and its
calls stay inside or go to older ones. -/
inductive Layered (g : CallGraph) : List (List NodeId) → Prop where
  | nil : Layered g []
  | cons {c : List NodeId} {older : List (List NodeId)} (hne : c ≠ [])
      (hconnected : ∀ u ∈ c, ∀ w ∈ c, g.Reaches u w)
      (hcallees : ∀ u ∈ c, ∀ w ∈ g.callees u, w ∈ c ∨ w ∈ older.flatten)
      (holder : Layered g older) : Layered g (c :: older)

namespace Layered

variable {lists : List (List NodeId)} {u w : NodeId}

theorem mem_of_mem_callees (h : Layered g lists) :
    ∀ u ∈ lists.flatten, ∀ w ∈ g.callees u, w ∈ lists.flatten := by
  induction h with
  | nil => simp
  | @cons c older _ _ hcallees _ ih =>
    intro u hu w hw
    rw [List.flatten_cons, List.mem_append] at hu ⊢
    rcases hu with hc | holder
    · exact hcallees u hc w hw
    · exact .inr (ih u holder w hw)

theorem mem_of_reaches (h : Layered g lists) (hu : u ∈ lists.flatten) (hreaches : g.Reaches u w) :
    w ∈ lists.flatten := by
  induction hreaches with
  | refl => exact hu
  | tail _ hcall ih => exact h.mem_of_mem_callees _ ih _ hcall

theorem reaches_of_mem (h : Layered g lists) :
    ∀ c ∈ lists, c ≠ [] ∧ ∀ u ∈ c, ∀ w ∈ c, g.Reaches u w := by
  induction h with
  | nil => simp
  | cons hne hconnected _ _ ih => exact List.forall_mem_cons.2 ⟨⟨hne, hconnected⟩, ih⟩

/-- Nodes that reach each other are in one component. -/
theorem exists_mem_of_reaches (h : Layered g lists) (hnodup : lists.flatten.Nodup)
    (hu : u ∈ lists.flatten) (hforth : g.Reaches u w) (hback : g.Reaches w u) :
    ∃ c ∈ lists, u ∈ c ∧ w ∈ c := by
  induction h with
  | nil => simp at hu
  | @cons c older hne hconnected hcallees holder ih =>
    have hlayered := Layered.cons hne hconnected hcallees holder
    have hw := hlayered.mem_of_reaches hu hforth
    rw [List.flatten_cons, List.nodup_append] at hnodup
    obtain ⟨-, hnodupOlder, hdisjoint⟩ := hnodup
    rw [List.flatten_cons, List.mem_append] at hu hw
    rcases hu with huc | huOlder
    · rcases hw with hwc | hwOlder
      · exact ⟨c, List.mem_cons_self, huc, hwc⟩
      · -- An older component does not get back to this one.
        exact absurd rfl (hdisjoint u huc u (holder.mem_of_reaches hwOlder hback))
    · obtain ⟨d, hd, hmem⟩ := ih hnodupOlder huOlder
      exact ⟨d, List.mem_cons_of_mem _ hd, hmem⟩

/-- Older components do not call later ones. -/
theorem pairwise_not_mem_callees (h : Layered g lists) (hnodup : lists.flatten.Nodup) :
    lists.Pairwise fun later earlier => ∀ u ∈ earlier, ∀ w ∈ later, w ∉ g.callees u := by
  induction h with
  | nil => exact .nil
  | @cons c older _ _ _ holder ih =>
    rw [List.flatten_cons, List.nodup_append] at hnodup
    obtain ⟨-, hnodupOlder, hdisjoint⟩ := hnodup
    refine .cons (fun d hd u hu w hw hcall => ?_) (ih hnodupOlder)
    have holderMem := holder.mem_of_mem_callees u (List.mem_flatten.2 ⟨d, hd, hu⟩) w hcall
    exact hdisjoint w hw w holderMem rfl

end Layered

/-! ## The invariant of the search -/

/-- What holds between two steps. -/
structure Invariant (g : CallGraph) (s : State) : Prop where
  numbered_iff : ∀ n ∈ g.members,
    (∃ k, s.number? g n = some k) ↔ n ∈ s.stack ∨ n ∈ s.complete.flatten
  bounded : ∀ n k, s.number? g n = some k → k < s.numbers.length
  nodup : (s.stack ++ s.complete.flatten).Nodup
  members : ∀ n ∈ s.stack ++ s.complete.flatten, n ∈ g.members
  layered : Layered g s.complete
  threaded : Threaded g (s.number? g) s.frames s.stack

section Numbers

variable {s : State} {v : NodeId}

theorem number?_discover : (s.discover g n).number? g v =
    (s.number? g v).or (if g.idOf v = g.idOf n then some s.numbers.length else none) := by
  rw [State.number?, State.discover, List.lookup_append, State.number?]
  by_cases h : g.idOf v = g.idOf n
  · simp [h]
  · have hne : (g.idOf v == g.idOf n) = false := by simpa using h
    simp [List.lookup_cons, h, hne]

theorem keeps_discover (s : State) (g : CallGraph) (n : NodeId) :
    Keeps (s.number? g) ((s.discover g n).number? g) := by
  intro v k hk
  rw [number?_discover, hk, Option.some_or]

theorem number?_discover_self (hnew : s.number? g n = none) :
    (s.discover g n).number? g n = some s.numbers.length := by
  rw [number?_discover, hnew, if_pos rfl, Option.none_or]

theorem keeps_step (s : State) (g : CallGraph) (top : Frame) (below : List Frame) :
    Keeps (s.number? g) ((s.step g top below).number? g) := by
  intro v k hk
  unfold State.step
  split
  · dsimp only
    split <;> exact hk
  · split
    · exact keeps_discover _ g _ v k hk
    · exact hk

end Numbers

theorem mem_members_of_mem_callees (hg : g.Tidy) {v : NodeId} (h : n ∈ g.callees v) :
    n ∈ g.members := by
  obtain ⟨edge, hedge, rfl⟩ := List.mem_map.1 h
  exact hg.callee_mem edge (List.mem_filter.1 hedge).1

namespace Invariant

variable {s : State}

theorem start (g : CallGraph) : Invariant g .start := by
  constructor <;> simp [State.start, State.number?, Layered.nil, Threaded.nil]

/-- Frames may change while the stack stays. -/
theorem withFrames (hs : Invariant g s) (h : Threaded g (s.number? g) frames s.stack) :
    Invariant g { s with frames } :=
  { hs with threaded := h }

theorem isStacked_iff (hg : g.Tidy) (hs : Invariant g s) (hn : n ∈ g.members) :
    s.isStacked g n = true ↔ n ∈ s.stack := by
  rw [State.isStacked, List.any_eq_true]
  constructor
  · intro h
    obtain ⟨v, hv, hid⟩ := h
    have hmember := hs.members v (List.mem_append_left _ hv)
    rw [← hg.eq_of_idOf_eq hmember hn (of_decide_eq_true hid)]
    exact hv
  · exact fun h => ⟨n, h, by simp⟩

/-- A new node is stacked, and the call that leads to it may be looked along at
the same time. -/
theorem discover (hg : g.Tidy) (hs : Invariant g s) (hn : n ∈ g.members)
    (hnew : s.number? g n = none)
    (hframes : Threaded g ((s.discover g n).number? g) frames s.stack)
    (hcall : ∀ next ∈ frames.head?, n ∈ g.callees next.node) :
    Invariant g ({ s with frames }.discover g n) := by
  have hfresh : n ∉ s.stack ++ s.complete.flatten := by
    intro hmem
    obtain ⟨k, hk⟩ := (hs.numbered_iff n hn).2 (List.mem_append.1 hmem)
    rw [hnew] at hk
    cases hk
  have hself := number?_discover_self hnew
  refine ⟨?_, ?_, ?_, ?_, hs.layered, ?_⟩
  · intro v hv
    have hold := hs.numbered_iff v hv
    show (∃ k, (s.discover g n).number? g v = some k) ↔
      v ∈ n :: s.stack ∨ v ∈ s.complete.flatten
    by_cases heq : v = n
    · subst heq
      exact ⟨fun _ => .inl List.mem_cons_self, fun _ => ⟨_, hself⟩⟩
    · have hid : g.idOf v ≠ g.idOf n := fun h => heq (hg.eq_of_idOf_eq hv hn h)
      rw [number?_discover, if_neg hid, Option.or_none, hold, List.mem_cons]
      simp [heq]
  · intro v k hk
    have hk' : (s.discover g n).number? g v = some k := hk
    have hlength : ({ s with frames }.discover g n).numbers.length = s.numbers.length + 1 := by
      simp [State.discover]
    rw [hlength]
    rw [number?_discover] at hk'
    rcases Option.or_eq_some_iff.1 hk' with hold | ⟨-, hnumber⟩
    · exact Nat.lt_succ_of_lt (hs.bounded v k hold)
    · have heq : s.numbers.length = k := by
        split at hnumber
        · exact Option.some.inj hnumber
        · cases hnumber
      omega
  · exact List.nodup_cons.2 ⟨hfresh, hs.nodup⟩
  · exact List.forall_mem_cons.2 ⟨hn, hs.members⟩
  · refine hframes.push hself (fun z hz => ?_) hcall
    have hmember := hs.members z (List.mem_append_left _ hz)
    obtain ⟨k, hk⟩ := (hs.numbered_iff z hmember).2 (.inl hz)
    exact ⟨k, keeps_discover s g n z k hk, hs.bounded z k hk⟩

/-- The segment of a node that gets back to nothing before itself is a
component. -/
theorem layered_cons (hg : g.Tidy) (hs : Invariant g s)
    (hstack : s.stack = above ++ top.node :: lower)
    (hsegment : Segment g (s.number? g) top above lower) (hrest : top.rest = [])
    (hclosed : top.least = top.number) : Layered g ((above ++ [top.node]) :: s.complete) := by
  have hconnected : ∀ y ∈ above ++ [top.node],
      g.Reaches top.node y ∧ g.Reaches y top.node := by
    intro y hy
    rcases List.mem_append.1 hy with habove | hself
    · exact hsegment.connected y habove
    · rw [List.mem_singleton.1 hself]
      exact ⟨.refl, .refl⟩
  refine .cons (by simp) (fun u hu w hw => (hconnected u hu).2.trans (hconnected w hw).1) ?_
    hs.layered
  intro u hu w hw
  obtain ⟨hnumber, hnot⟩ := hsegment.callees_of_closed hrest hclosed u hu w hw
  have hmember := mem_members_of_mem_callees hg hw
  rcases (hs.numbered_iff w hmember).1 hnumber with hstacked | hcomplete
  · rw [hstack] at hstacked
    have hcases : w ∈ above ∨ w = top.node := by simpa [hnot] using hstacked
    exact .inl (by simpa using hcases)
  · exact .inr hcomplete

theorem close_eq (hs : Invariant g s) (hstack : s.stack = above ++ n :: lower) :
    s.close n = { s with stack := lower, complete := (above ++ [n]) :: s.complete } := by
  have hnot : ∀ v ∈ above, v ≠ n := by
    have hnodup := (List.nodup_append.1 hs.nodup).1
    rw [hstack, List.nodup_append] at hnodup
    exact fun v hv => hnodup.2.2 v hv n List.mem_cons_self
  have htake : s.stack.takeWhile (· ≠ n) = above := by
    rw [hstack, List.takeWhile_append_of_pos (by simpa using hnot)]
    simp
  have hdrop : s.stack.dropWhile (· ≠ n) = n :: lower := by
    rw [hstack, List.dropWhile_append_of_pos (by simpa using hnot)]
    simp
  rw [State.close, htake, hdrop]
  rfl

/-- A node that is done and has found nothing before itself closes its
component. -/
theorem close (hg : g.Tidy) (hs : Invariant g s)
    (hstack : s.stack = above ++ top.node :: lower)
    (hsegment : Segment g (s.number? g) top above lower)
    (hbelow : Threaded g (s.number? g) below lower) (hrest : top.rest = [])
    (hclosed : top.least = top.number) :
    Invariant g { s.close top.node with frames := below } := by
  rw [hs.close_eq hstack]
  have hperm : (lower ++ ((above ++ [top.node]) :: s.complete).flatten).Perm
      (s.stack ++ s.complete.flatten) := by
    rw [hstack, List.flatten_cons, ← List.append_assoc]
    refine List.Perm.append_right _ (List.perm_append_comm.trans ?_)
    simp
  refine ⟨?_, hs.bounded, hperm.nodup_iff.2 hs.nodup, ?_,
    hs.layered_cons hg hstack hsegment hrest hclosed, hbelow⟩
  · intro n hn
    rw [← List.mem_append, hperm.mem_iff, List.mem_append]
    exact hs.numbered_iff n hn
  · intro n hn
    exact hs.members n (hperm.mem_iff.1 hn)

/-- A call to a new node: the node is discovered. -/
theorem discoverCallee (hg : g.Tidy) (hs : Invariant g s)
    (hstack : s.stack = above ++ top.node :: lower)
    (hsegment : Segment g (s.number? g) top above lower)
    (hcall : ∀ next ∈ below.head?, top.node ∈ g.callees next.node)
    (hbelow : Threaded g (s.number? g) below lower) {rest : List NodeId}
    (hrest : top.rest = n :: rest) (hnew : s.number? g n = none) :
    Invariant g ({ s with frames := { top with rest } :: below }.discover g n) := by
  have hkeep := keeps_discover s g n
  -- The new node is not further down the stack.
  have hlooked : Looked ((s.discover g n).number? g) top.least lower n := by
    refine ⟨_, number?_discover_self hnew, fun hlower => ?_⟩
    obtain ⟨k, hk, -⟩ := hsegment.lower_number n hlower
    rw [hnew] at hk
    cases hk
  have hlater := hsegment.mono hkeep
  have hmember := mem_members_of_mem_callees hg (hsegment.mem_callees hrest)
  refine hs.discover hg hmember hnew ?_ ?_
  · rw [hstack]
    exact .cons (hlater.look hrest (Nat.le_refl _) hlater.least hlooked) hcall
      (hbelow.mono hkeep)
  · intro next hnext
    obtain rfl : { top with rest } = next := by simpa using hnext
    exact hsegment.mem_callees hrest

/-- A call to a known node: its number counts if it is stacked. -/
theorem lookCallee (hg : g.Tidy) (hs : Invariant g s)
    (hstack : s.stack = above ++ top.node :: lower)
    (hsegment : Segment g (s.number? g) top above lower)
    (hcall : ∀ next ∈ below.head?, top.node ∈ g.callees next.node)
    (hbelow : Threaded g (s.number? g) below lower) {rest : List NodeId}
    (hrest : top.rest = n :: rest) (hk : s.number? g n = some k) :
    Invariant g { s with
      frames :=
        { top with rest, least := if s.isStacked g n then min top.least k else top.least } ::
          below } := by
  refine hs.withFrames ?_
  rw [hstack]
  refine .cons ?_ hcall hbelow
  have hmember := mem_members_of_mem_callees hg (hsegment.mem_callees hrest)
  have hiff := hs.isStacked_iff hg hmember
  by_cases hstacked : s.isStacked g n = true
  · rw [if_pos hstacked]
    rw [hiff, hstack] at hstacked
    exact hsegment.look_stacked hrest hk hstacked
  · rw [if_neg hstacked]
    refine hsegment.look hrest (Nat.le_refl _) hsegment.least ⟨k, hk, fun hlower => ?_⟩
    exact absurd (hiff.2 (by simp [hstack, hlower])) hstacked

/-- Every step keeps the invariant. -/
theorem step (hg : g.Tidy) (hs : Invariant g s) (hframes : s.frames = top :: below) :
    Invariant g (s.step g top below) := by
  have hthreaded := hs.threaded
  rw [hframes] at hthreaded
  generalize hstack : s.stack = stack at hthreaded
  cases hthreaded with
  | @cons _ _ above lower hsegment hcall hbelow =>
    unfold State.step
    split
    · rename_i hrest
      dsimp only
      split
      · rename_i hclosed
        rw [hsegment.handDown_eq hbelow hclosed]
        exact hs.close hg hstack hsegment hbelow hrest hclosed
      · rename_i hopen
        refine hs.withFrames ?_
        rw [hstack]
        exact (Threaded.cons hsegment hcall hbelow).merge hrest hopen
    · rename_i n rest hrest
      split
      · rename_i hnew
        exact hs.discoverCallee hg hstack hsegment hcall hbelow hrest hnew
      · rename_i k hk
        exact hs.lookCallee hg hstack hsegment hcall hbelow hrest hk

/-- A search keeps the invariant, leaves nothing under way and takes no number
away. -/
theorem run (hg : g.Tidy) (hs : Invariant g s) :
    Invariant g (s.run g) ∧ (s.run g).frames = [] ∧
      Keeps (s.number? g) ((s.run g).number? g) := by
  fun_induction State.run s g with
  | case1 s hframes => exact ⟨hs, hframes, .refl _⟩
  | case2 s top below hframes ih =>
    obtain ⟨hrun, hdone, hkeep⟩ := ih (hs.step hg hframes)
    exact ⟨hrun, hdone, (keeps_step s g top below).trans hkeep⟩

theorem stack_eq_nil (hs : Invariant g s) (hdone : s.frames = []) : s.stack = [] := by
  have hthreaded := hs.threaded
  rw [hdone] at hthreaded
  generalize s.stack = stack at hthreaded
  cases hthreaded
  rfl

/-- After a root was visited it has a number. -/
theorem visitRoot (hg : g.Tidy) (hs : Invariant g s) (hdone : s.frames = [])
    (hn : n ∈ g.members) :
    Invariant g (s.visitRoot g n) ∧ (s.visitRoot g n).frames = [] ∧
      (∃ k, (s.visitRoot g n).number? g n = some k) ∧
      Keeps (s.number? g) ((s.visitRoot g n).number? g) := by
  unfold State.visitRoot
  split
  · rename_i hsome
    exact ⟨hs, hdone, Option.isSome_iff_exists.1 hsome, .refl _⟩
  · rename_i hnone
    have hnew : s.number? g n = none := by simpa using hnone
    have hdiscover := keeps_discover s g n
    have hdiscovered : Invariant g (s.discover g n) :=
      hs.discover hg hn hnew (hs.threaded.mono hdiscover) (by simp [hdone])
    obtain ⟨hrun, hrunDone, hkeep⟩ := hdiscovered.run hg
    exact ⟨hrun, hrunDone, ⟨_, hkeep n _ (number?_discover_self hnew)⟩, hdiscover.trans hkeep⟩

/-- After all roots were visited they have numbers. -/
theorem visitRoots (hg : g.Tidy) (hs : Invariant g s) (hdone : s.frames = [])
    {roots : List NodeId} (hroots : roots ⊆ g.members) :
    Invariant g (roots.foldl (State.visitRoot g) s) ∧
      (roots.foldl (State.visitRoot g) s).frames = [] ∧
      (∀ n ∈ roots, ∃ k, (roots.foldl (State.visitRoot g) s).number? g n = some k) ∧
      Keeps (s.number? g) ((roots.foldl (State.visitRoot g) s).number? g) := by
  induction roots generalizing s with
  | nil => exact ⟨hs, hdone, by simp, .refl _⟩
  | cons n roots ih =>
    obtain ⟨hn, hroots⟩ := List.cons_subset.1 hroots
    obtain ⟨hvisited, hvisitedDone, ⟨j, hj⟩, hkeep⟩ := hs.visitRoot hg hdone hn
    obtain ⟨hend, hendDone, hnumbered, hkeepEnd⟩ := ih hvisited hvisitedDone hroots
    refine ⟨hend, hendDone, ?_, hkeep.trans hkeepEnd⟩
    exact List.forall_mem_cons.2 ⟨⟨j, hkeepEnd n j hj⟩, hnumbered⟩

end Invariant

end Components

/-! ## The components of a graph -/

/-- At the end of the search the complete components have every node of the
table, once. -/
theorem Tidy.layered_components {g : CallGraph} (hg : g.Tidy) :
    Components.Layered g g.components.reverse ∧ g.components.reverse.flatten.Nodup ∧
      ∀ n, n ∈ g.components.reverse.flatten ↔ n ∈ g.members := by
  obtain ⟨hend, hdone, hnumbered, -⟩ :=
    (Components.Invariant.start g).visitRoots hg rfl (List.Subset.refl g.members)
  rw [components, List.reverse_reverse]
  generalize g.members.foldl (Components.State.visitRoot g) .start = s at hend hdone hnumbered
  have hnil := hend.stack_eq_nil hdone
  have hnodup := hend.nodup
  have hmembers := hend.members
  rw [hnil, List.nil_append] at hnodup hmembers
  refine ⟨hend.layered, hnodup, fun n => ⟨hmembers n, fun hn => ?_⟩⟩
  simpa [hnil] using (hend.numbered_iff n hn).1 (hnumbered n hn)

/-- The components of a call graph are the classes of nodes that reach each
other along calls.  Every node is in one of them, once, and no component has a
call into a later one. -/
theorem Grown.components_condense {g : CallGraph} (hgrown : g.Grown) :
    [] ∉ g.components ∧
      (∀ n, g.components.flatten.count n = if n ∈ g.members then 1 else 0) ∧
      (∀ u ∈ g.members, ∀ w ∈ g.members,
        (∃ c ∈ g.components, u ∈ c ∧ w ∈ c) ↔ g.Reaches u w ∧ g.Reaches w u) ∧
      g.components.Pairwise fun earlier later =>
        ∀ edge ∈ g.edges.toList, edge.caller ∈ earlier → edge.callee ∉ later := by
  obtain ⟨hlayered, hnodup, hmem⟩ := hgrown.tidy.layered_components
  have hperm : g.components.reverse.flatten.Perm g.components.flatten :=
    (List.reverse_perm g.components).flatten
  refine ⟨?_, fun n => ?_, fun u hu w hw => ⟨?_, ?_⟩, ?_⟩
  · intro hnil
    exact (hlayered.reaches_of_mem [] (List.mem_reverse.2 hnil)).1 rfl
  · rw [← hperm.count_eq n]
    split
    · rename_i hn
      exact List.count_eq_one_of_mem hnodup ((hmem n).2 hn)
    · rename_i hn
      exact List.count_eq_zero.2 fun h => hn ((hmem n).1 h)
  · intro h
    obtain ⟨c, hc, huc, hwc⟩ := h
    have hconnected := (hlayered.reaches_of_mem c (List.mem_reverse.2 hc)).2
    exact ⟨hconnected u huc w hwc, hconnected w hwc u huc⟩
  · intro h
    obtain ⟨c, hc, hboth⟩ := hlayered.exists_mem_of_reaches hnodup ((hmem u).2 hu) h.1 h.2
    exact ⟨c, List.mem_reverse.1 hc, hboth⟩
  · rw [← List.pairwise_reverse]
    refine (hlayered.pairwise_not_mem_callees hnodup).imp ?_
    intro later earlier hnone edge hedge hcaller hcallee
    refine hnone edge.caller hcaller edge.callee hcallee ?_
    exact List.mem_map.2 ⟨edge, by simp [outEdges, hedge], rfl⟩

/-- The graph of the small program with four more calls: from `step` to
`onDone` and twice back, and from `onEvent` to itself. -/
def relayGraph : CallGraph :=
  ((((build Model.Relay.model ⟨0⟩).connect ⟨⟨2⟩, ⟨5⟩, none, .callback⟩).connect
    ⟨⟨5⟩, ⟨2⟩, none, .direct⟩).connect ⟨⟨5⟩, ⟨2⟩, none, .callback⟩).connect
    ⟨⟨4⟩, ⟨4⟩, none, .functionPointer⟩

theorem grown_relayGraph : relayGraph.Grown :=
  ((((Grown.build Model.Relay.model ⟨0⟩).connect (by decide) (by decide)).connect
    (by decide) (by decide)).connect (by decide) (by decide)).connect (by decide) (by decide)

/-- In that graph `main`, `step` and `onDone` are one component, and `idle`,
which calls `main`, comes after it. -/
theorem Grown.components_condense_relay :
    relayGraph.components = [[⟨0⟩], [⟨3⟩], [⟨5⟩, ⟨2⟩, ⟨1⟩], [⟨4⟩], [⟨6⟩]] ∧
      (relayGraph.Reaches ⟨1⟩ ⟨5⟩ ∧ relayGraph.Reaches ⟨5⟩ ⟨1⟩) ∧
      ¬(relayGraph.Reaches ⟨1⟩ ⟨6⟩ ∧ relayGraph.Reaches ⟨6⟩ ⟨1⟩) := by
  have hlists : relayGraph.components = [[⟨0⟩], [⟨3⟩], [⟨5⟩, ⟨2⟩, ⟨1⟩], [⟨4⟩], [⟨6⟩]] := by
    cbv
  obtain ⟨-, -, htogether, -⟩ := grown_relayGraph.components_condense
  refine ⟨hlists, ?_, ?_⟩
  · exact (htogether ⟨1⟩ (by decide) ⟨5⟩ (by decide)).1
      ⟨[⟨5⟩, ⟨2⟩, ⟨1⟩], by simp [hlists], by decide, by decide⟩
  · intro hboth
    obtain ⟨c, hc, hmem⟩ := (htogether ⟨1⟩ (by decide) ⟨6⟩ (by decide)).2 hboth
    rw [hlists] at hc
    revert c
    decide

end CallReach.CallGraph
