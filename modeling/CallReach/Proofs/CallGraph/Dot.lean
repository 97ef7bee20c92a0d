import Mathlib
import CallReach.CallGraph.Dot
import CallReach.Proofs.CallGraph.Annotated

/-!
# Reading a drawing back

In DOT a string stands between double quotes, and a double quote inside of it is
written with a backslash.  `Dot.scan` reads the quoted strings of a text.

* What can be quoted.  Ids and titles are written as they are, which is right for
  the `Quotable` texts: no double quote, and an even number of backslashes at the
  end, so that the last one does not take the closing quote with it.  In a label
  double quotes are escaped and backslashes are not, which is right for the
  `Escapable` texts (`scan_quoted_iff`, `scan_escaped_iff`).
* What a line shows.  `Shows` says that the strings of a text are read back exactly
  when all of them are quotable.  It passes from parts to wholes, and so from the
  lines to the drawing (`shows_dot`).
* What is drawn.  In the graph of a program names are ids (`labelled_build`), so
  that the title and the ids decide (`readBack_dot`).  `exists_dot_misread` has a
  program whose names are not quotable.
-/

namespace CallReach

namespace Dot

/-! ## Quoted strings -/

/-- Where a reader of quoted strings stands. -/
inductive Mode where
  | outside
  /-- Inside a string of which some characters were read. -/
  | inside (read : List Char)
  /-- After a backslash inside a string. -/
  | escaped (read : List Char)

/-- The quoted strings of a text, unless one is left open.  A backslash and the
character after it belong together: with a double quote they stand for it, and
otherwise for themselves. -/
def scan : Mode → List Char → Option (List String)
  | .outside, [] => some []
  | .inside _, [] => none
  | .escaped _, [] => none
  | .outside, c :: rest => scan (if c = '\x22' then .inside [] else .outside) rest
  | .inside read, c :: rest =>
      if c = '\x22' then (scan .outside rest).map (String.ofList read :: ·)
      else scan (if c = '\x5c' then .escaped read else .inside (read ++ [c])) rest
  | .escaped read, c :: rest =>
      scan (.inside (read ++ if c = '\x22' then [c] else ['\x5c', c])) rest

/-- The quoted strings of a text. -/
def quotedStrings (text : String) : Option (List String) :=
  scan .outside text.toList

/-- A text with a backslash before every double quote. -/
def escape (text : List Char) : List Char :=
  text.flatMap fun c => if c = '\x22' then ['\x5c', c] else [c]

/-- The number of backslashes at the end of a text. -/
def backslashes (text : List Char) : Nat :=
  (text.rtakeWhile (· = '\x5c')).length

/-- A text that can stand between double quotes as it is. -/
def Quotable (text : String) : Prop :=
  '\x22' ∉ text.toList ∧ Even (backslashes text.toList)

instance (text : String) : Decidable (Quotable text) :=
  inferInstanceAs (Decidable (_ ∧ _))

/-- A text for which a backslash before every double quote is enough: no other
backslash takes a double quote, or the end, with it. -/
def Escapable (text : String) : Prop :=
  ∀ part ∈ text.toList.splitOn '\x22', Even (backslashes part)

instance (text : String) : Decidable (Escapable text) :=
  inferInstanceAs (Decidable (∀ _ ∈ _, _))

/-! ## Reading one string -/

section Scan

variable {read front text rest : List Char} {more strings : List String}

theorem scan_outside_append (h : '\x22' ∉ text) (rest : List Char) :
    scan .outside (text ++ rest) = scan .outside rest := by
  induction text with
  | nil => rfl
  | cons c text ih =>
    rw [List.mem_cons, not_or] at h
    rw [List.cons_append, scan, if_neg (Ne.symm h.1), ih h.2]

theorem backslashes_concat (text : List Char) (c : Char) :
    backslashes (text ++ [c]) = if c = '\x5c' then backslashes text + 1 else 0 := by
  unfold backslashes
  rw [List.rtakeWhile_concat]
  by_cases h : c = '\x5c' <;> simp [h]

theorem exists_of_not_even (h : ¬Even (backslashes text)) :
    ∃ front, text = front ++ ['\x5c'] := by
  induction text using List.reverseRecOn with
  | nil => simp [backslashes] at h
  | append_singleton front c _ =>
    rw [backslashes_concat] at h
    by_cases hc : c = '\x5c'
    · exact ⟨front, by rw [hc]⟩
    · simp [hc] at h

/-- Without double quotes a string stays open.  After an odd number of backslashes
the last of them waits for the next character. -/
theorem scan_inside_append (h : '\x22' ∉ text) (read rest : List Char) :
    scan (.inside read) (text ++ rest) =
      scan (if Even (backslashes text) then .inside (read ++ text)
        else .escaped (read ++ text.dropLast)) rest := by
  induction text using List.reverseRecOn generalizing rest with
  | nil => simp [backslashes]
  | append_singleton text c ih =>
    rw [List.mem_append, not_or, List.mem_singleton] at h
    have hc : c ≠ '\x22' := Ne.symm h.2
    rw [List.append_assoc, List.singleton_append, ih h.1, backslashes_concat,
      List.dropLast_concat]
    by_cases heven : Even (backslashes text)
    · by_cases hslash : c = '\x5c'
      · simp [heven, hslash, scan, Nat.even_add_one]
      · simp [heven, hslash, scan, hc]
    · obtain ⟨front, rfl⟩ := exists_of_not_even heven
      by_cases hslash : c = '\x5c'
      · simp [heven, hslash, scan, Nat.even_add_one]
      · simp [heven, hslash, scan, hc]

/-- What was read of a string is the beginning of it. -/
theorem prefix_of_scan (text read : List Char) :
    (scan (.inside read) text = some strings →
        ∃ s more, strings = s :: more ∧ read <+: s.toList) ∧
      (scan (.escaped read) text = some strings →
        ∃ s more, strings = s :: more ∧ read <+: s.toList) := by
  induction text generalizing read with
  | nil => simp [scan]
  | cons c rest ih =>
    constructor
    · intro h
      rw [scan] at h
      by_cases hc : c = '\x22'
      · rw [if_pos hc] at h
        obtain ⟨more, -, hmore⟩ := Option.map_eq_some_iff.1 h
        exact ⟨String.ofList read, more, hmore.symm, by rw [String.toList_ofList]⟩
      · rw [if_neg hc] at h
        split at h
        · exact (ih read).2 h
        · obtain ⟨s, more, hs, hread⟩ := (ih (read ++ [c])).1 h
          exact ⟨s, more, hs, (List.prefix_append _ _).trans hread⟩
    · intro h
      rw [scan] at h
      obtain ⟨s, more, hs, hread⟩ := (ih _).1 h
      exact ⟨s, more, hs, (List.prefix_append _ _).trans hread⟩

/-- A text without double quotes is read up to the next one, unless a backslash
takes that with it. -/
theorem scan_close_iff (h : '\x22' ∉ text) {s : String} (hs : read ++ text <+: s.toList) :
    scan (.inside read) (text ++ '\x22' :: rest) = some (s :: more) ↔
      (s.toList = read ++ text ∧ Even (backslashes text)) ∧ scan .outside rest = some more := by
  rw [scan_inside_append h]
  by_cases heven : Even (backslashes text)
  · rw [if_pos heven, scan, if_pos rfl]
    simp only [Option.map_eq_some_iff, List.cons.injEq, heven, and_true]
    constructor
    · rintro ⟨_, hrest, hstring, rfl⟩
      exact ⟨by rw [← hstring, String.toList_ofList], hrest⟩
    · rintro ⟨hstring, hrest⟩
      exact ⟨more, hrest, by rw [← hstring, String.ofList_toList], rfl⟩
  · obtain ⟨front, rfl⟩ := exists_of_not_even heven
    rw [if_neg heven, List.dropLast_concat, scan, if_pos rfl]
    refine iff_of_false (fun hscan => ?_) (fun hscan => heven hscan.1.2)
    obtain ⟨_, _, hcons, hread⟩ := (prefix_of_scan _ _).1 hscan
    cases hcons
    -- The string goes on with a double quote, where it should have a backslash.
    rw [← List.append_assoc] at hs
    have hsame := (List.prefix_of_prefix_length_le hread hs (by simp)).eq_of_length (by simp)
    simp at hsame

/-- A string that is written as it is. -/
theorem scan_quoted_iff (text : String) :
    scan (.inside []) (text.toList ++ '\x22' :: rest) = some (text :: more) ↔
      Quotable text ∧ scan .outside rest = some more := by
  by_cases hquote : '\x22' ∈ text.toList
  · obtain ⟨front, back, htext, hfront⟩ := List.eq_append_cons_of_mem hquote
    have hopen : [] ++ front <+: text.toList := by
      rw [htext]
      exact List.prefix_append _ _
    rw [htext, List.append_assoc, List.cons_append, scan_close_iff hfront hopen]
    refine iff_of_false (fun h => ?_) (fun h => h.1.1 hquote)
    have hshort := h.1.1
    simp [htext] at hshort
  · rw [scan_close_iff hquote (List.prefix_refl _)]
    simp [Quotable, hquote]

theorem escape_eq_self (h : '\x22' ∉ text) : escape text = text := by
  unfold escape
  induction text with
  | nil => rfl
  | cons c text ih =>
    rw [List.mem_cons, not_or] at h
    rw [List.flatMap_cons, if_neg (Ne.symm h.1), ih h.2, List.singleton_append]

theorem escape_append_cons (h : '\x22' ∉ front) (back : List Char) :
    escape (front ++ '\x22' :: back) = front ++ '\x5c' :: '\x22' :: escape back := by
  have hfront := escape_eq_self h
  unfold escape at hfront ⊢
  rw [List.flatMap_append, hfront, List.flatMap_cons, if_pos rfl]
  rfl

/-- A string in which double quotes are escaped. -/
theorem scan_escaped_iff (read text rest : List Char) (more : List String) :
    scan (.inside read) (escape text ++ '\x22' :: rest) =
        some (String.ofList (read ++ text) :: more) ↔
      (∀ part ∈ text.splitOn '\x22', Even (backslashes part)) ∧ scan .outside rest = some more := by
  -- The parts between the double quotes are read one after the other.
  induction hlength : text.length using Nat.strong_induction_on generalizing read text with
  | _ n ih =>
    by_cases hquote : '\x22' ∈ text
    · obtain ⟨front, back, rfl, hfront⟩ := List.eq_append_cons_of_mem hquote
      rw [List.splitOn_append_cons_self_of_not_mem hfront, List.forall_mem_cons,
        escape_append_cons hfront, List.append_assoc, scan_inside_append hfront]
      by_cases heven : Even (backslashes front)
      · have hshorter : back.length < n := by
          rw [← hlength, List.length_append, List.length_cons]
          omega
        have hback : read ++ (front ++ '\x22' :: back) = read ++ front ++ ['\x22'] ++ back := by
          simp
        rw [if_pos heven, hback, and_iff_right heven]
        exact ih _ hshorter _ back rfl
      · obtain ⟨before, rfl⟩ := exists_of_not_even heven
        rw [if_neg heven, List.dropLast_concat]
        refine iff_of_false (fun h => ?_) (fun h => heven h.1.1)
        -- The backslash that was to escape the double quote is taken by the one before it.
        obtain ⟨_, -, hcons⟩ := Option.map_eq_some_iff.1 h
        have hstring := congrArg String.toList (List.cons.inj hcons).1
        simp at hstring
    · rw [escape_eq_self hquote, List.splitOn_eq_singleton hquote,
        scan_close_iff hquote (by rw [String.toList_ofList])]
      simp

end Scan

/-! ## What a text shows -/

/-- A text shows strings: they are read back from it, whatever comes after it,
exactly when every one of them is quotable. -/
def Shows (text : String) (strings : List String) : Prop :=
  ∀ rest more, scan .outside (text.toList ++ rest) = some (strings ++ more) ↔
    (∀ s ∈ strings, Quotable s) ∧ scan .outside rest = some more

section Shows

variable {text other : String} {strings others : List String}

theorem Shows.quotedStrings_iff (h : Shows text strings) :
    quotedStrings text = some strings ↔ ∀ s ∈ strings, Quotable s := by
  simpa [quotedStrings, scan] using h [] []

theorem Shows.append (h : Shows text strings) (hother : Shows other others) :
    Shows (text ++ other) (strings ++ others) := by
  intro rest more
  rw [String.toList_append, List.append_assoc, List.append_assoc, h, hother, ← and_assoc,
    List.forall_mem_append]

theorem shows_gap (h : '\x22' ∉ text.toList) : Shows text [] := by
  intro rest more
  rw [scan_outside_append h]
  simp

theorem shows_dotRaw (text : String) : Shows (CallGraph.dotRaw text) [text] := by
  intro rest more
  have htext : (CallGraph.dotRaw text).toList ++ rest =
      '\x22' :: (text.toList ++ '\x22' :: rest) := by
    simp [CallGraph.dotRaw]
  rw [htext, scan, if_pos rfl, List.singleton_append, scan_quoted_iff, List.forall_mem_singleton]

/-- A label is read back exactly when it is escapable. -/
theorem quotedStrings_dotEscape_iff (text : String) :
    quotedStrings (CallGraph.dotRaw (CallGraph.dotEscape text)) = some [text] ↔
      Escapable text := by
  have htext : (CallGraph.dotRaw (CallGraph.dotEscape text)).toList =
      '\x22' :: (escape text.toList ++ '\x22' :: []) := by
    simp [CallGraph.dotRaw, CallGraph.dotEscape, escape]
  have hscan := scan_escaped_iff [] text.toList [] []
  rw [List.nil_append, String.ofList_toList] at hscan
  rw [quotedStrings, htext, scan, if_pos rfl, hscan]
  simp [Escapable, scan]

/-- Escaping leaves a quotable text alone. -/
theorem Quotable.dotEscape_eq (h : Quotable text) : CallGraph.dotEscape text = text := by
  have hescape := escape_eq_self h.1
  unfold escape at hescape
  rw [CallGraph.dotEscape, hescape, String.ofList_toList]

/-- A string between two texts without double quotes. -/
theorem shows_between (before text after : String) (hbefore : '\x22' ∉ before.toList)
    (hafter : '\x22' ∉ after.toList) :
    Shows (before ++ CallGraph.dotRaw text ++ after) [text] :=
  ((shows_gap hbefore).append (shows_dotRaw text)).append (shows_gap hafter)

/-- Lines show together what each of them shows. -/
theorem shows_lines {lines : List (String × List String)}
    (h : ∀ line ∈ lines, Shows line.1 line.2) :
    Shows ("\n".intercalate (lines.map (·.1))) (lines.flatMap (·.2)) := by
  induction lines with
  | nil => exact shows_gap (by simp)
  | cons line rest ih =>
    rw [List.forall_mem_cons] at h
    cases rest with
    | nil => simpa using h.1
    | cons next rest =>
      have hbreak : Shows (line.1 ++ "\n") line.2 := by
        simpa using h.1.append (shows_gap (show '\x22' ∉ "\n".toList by decide))
      simpa [String.intercalate_cons_cons] using hbreak.append (ih h.2)

end Shows

end Dot

namespace CallGraph

open Dot

variable {m : Model} {g : CallGraph} {title : String} {highlighted : List String}

/-! ## The strings of a drawing -/

/-- The colour of a node. -/
def dotColor (g : CallGraph) (highlighted : List String) (n : NodeId) : String :=
  if highlighted.contains (g.idOf n) then "#ccffcc"
  else
    match (g.node n).kind with
    | .function => "#ddeeff"
    | .external => "#fff3cd"
    | .unknown => "#ffcccc"

/-- The strings that the line of a node is to show. -/
def nodeStrings (g : CallGraph) (m : Model) (highlighted : List String) (n : NodeId) :
    List String :=
  [g.idOf n, g.nodeName m n, g.dotColor highlighted n]

/-- The strings that the line of an edge is to show. -/
def edgeStrings (g : CallGraph) (edge : Edge) : List String :=
  [g.idOf edge.caller, g.idOf edge.callee, edge.resolution.word]

/-- The strings that a drawing is to show. -/
def dotStrings (g : CallGraph) (m : Model) (title : String) (highlighted : List String) :
    List String :=
  (if title.isEmpty then [] else [title]) ++ ["Helvetica"] ++
    (g.members.filter g.isShown).flatMap (g.nodeStrings m highlighted) ++
    g.edges.toList.flatMap g.edgeStrings

theorem shows_nodeStyle (g : CallGraph) (highlighted : List String) (n : NodeId) :
    Shows (if highlighted.contains (g.idOf n) then highlightStyle else (g.node n).kind.dotStyle)
      [g.dotColor highlighted n] := by
  have hstyle (color after : String) (hafter : '\x22' ∉ after.toList) :=
    shows_between "style=filled, fillcolor=" color after (by decide) hafter
  have hhighlight : highlightStyle = "style=filled, fillcolor=" ++ dotRaw "#ccffcc" ++ "" := by
    decide
  have hkind (kind : NodeRole) : kind.dotStyle = "style=filled, fillcolor=" ++
      dotRaw (match kind with
        | .function => "#ddeeff"
        | .external => "#fff3cd"
        | .unknown => "#ffcccc") ++
      match kind with
        | .function => ""
        | .external => ", shape=ellipse"
        | .unknown => ", shape=diamond" := by
    cases kind <;> decide
  unfold dotColor
  split
  · rw [hhighlight]
    exact hstyle _ _ (by decide)
  · rw [hkind]
    exact hstyle _ _ (by cases (g.node n).kind <;> decide)

/-- The name of a node is shown after its id, so that it may be taken for quotable
where the id is. -/
theorem shows_dotNode (n : NodeId) (h : Quotable (g.idOf n) → Quotable (g.nodeName m n)) :
    Shows (g.dotNode m highlighted n) (g.nodeStrings m highlighted n) := by
  have hid := (shows_gap (show '\x22' ∉ "  ".toList by decide)).append (shows_dotRaw (g.idOf n))
  by_cases hquotable : Quotable (g.idOf n)
  · have hlabel := shows_between " [label=" (g.nodeName m n) ", " (by decide) (by decide)
    have hstyle := (g.shows_nodeStyle highlighted n).append
      (shows_gap (show '\x22' ∉ "];".toList by decide))
    rw [dotNode, (h hquotable).dotEscape_eq, nodeStrings]
    simpa [String.append_assoc] using (hid.append hlabel).append hstyle
  · intro rest more
    refine iff_of_false (fun hscan => ?_) (fun hscan => hquotable (hscan.1 _ List.mem_cons_self))
    rw [dotNode, nodeStrings] at hscan
    simp only [String.append_assoc] at hscan
    rw [← String.append_assoc, String.toList_append, List.append_assoc] at hscan
    have hread := (hid _ _).1 hscan
    exact hquotable (hread.1 _ (by simp))

theorem shows_dotEdge (edge : Edge) : Shows (g.dotEdge edge) (g.edgeStrings edge) := by
  have hcaller := shows_between "  " (g.idOf edge.caller) " -> " (by decide) (by decide)
  have hcallee := shows_dotRaw (g.idOf edge.callee)
  have hword := shows_between " [label=" edge.resolution.word edge.resolution.dotStyle (by decide)
    (by cases edge.resolution <;> decide)
  have hend := shows_gap (show '\x22' ∉ "];".toList by decide)
  rw [dotEdge, edgeStrings]
  simpa [String.append_assoc] using ((hcaller.append hcallee).append hword).append hend

/-- The lines of a drawing with the strings that each of them is to show. -/
def shownLines (g : CallGraph) (m : Model) (title : String) (highlighted : List String) :
    List (String × List String) :=
  [("digraph CallGraph \x7b", []), ("  rankdir=TB;", [])] ++
    (dotTitle title).map (fun line => (line, [title])) ++
    [("  node [shape=box, fontname=\"Helvetica\", fontsize=10];", ["Helvetica"])] ++
    (g.members.filter g.isShown).map
      (fun n => (g.dotNode m highlighted n, g.nodeStrings m highlighted n)) ++
    g.edges.toList.map (fun edge => (g.dotEdge edge, g.edgeStrings edge)) ++ [("\x7d", [])]

theorem map_fst_shownLines :
    (g.shownLines m title highlighted).map (·.1) = g.dotLines m title highlighted := by
  simp [shownLines, dotLines, Function.comp_def]

theorem flatMap_snd_shownLines :
    (g.shownLines m title highlighted).flatMap (·.2) = g.dotStrings m title highlighted := by
  unfold shownLines dotStrings dotTitle
  split <;> simp [List.flatMap_map]

/-- A drawing shows its strings. -/
theorem shows_dot (h : ∀ n ∈ g.members, Quotable (g.idOf n) → Quotable (g.nodeName m n)) :
    Shows (g.dot m title highlighted) (g.dotStrings m title highlighted) := by
  rw [dot, ← map_fst_shownLines, ← flatMap_snd_shownLines]
  apply shows_lines
  intro line hline
  simp only [shownLines, List.mem_append, List.mem_cons, List.not_mem_nil, or_false, List.mem_map,
    List.mem_filter] at hline
  rcases hline with (((((rfl | rfl) | ⟨_, htitle, rfl⟩) | rfl) | ⟨n, ⟨hn, -⟩, rfl⟩) |
    ⟨edge, -, rfl⟩) | rfl
  · exact shows_gap (by decide)
  · exact shows_gap (by decide)
  · unfold dotTitle at htitle
    split at htitle
    · cases htitle
    · rw [List.mem_singleton.1 htitle]
      exact shows_between "  label=" title ";" (by decide) (by decide)
  · exact shows_between "  node [shape=box, fontname=" "Helvetica" ", fontsize=10];" (by decide)
      (by decide)
  · exact shows_dotNode n (h n hn)
  · exact shows_dotEdge edge
  · exact shows_gap (by decide)

/-! ## Graphs of a program -/

/-- What every new node and every new edge keep, annotating keeps. -/
theorem annotate_induction {P : CallGraph → Prop} (index : TypeIndex)
    (hnode : ∀ g f, P g → P (g.ensureNode m f).1) (hedge : ∀ g edge, P g → P (g.connect edge))
    (hg : P g) : P (annotate m index g).graph := by
  have hall : ∀ (caller : NodeId) (site : SiteId) (resolution : Resolution)
      (targets : FunctionSet) (g : CallGraph), P g →
      P (connectAll m caller site resolution targets g) := fun _ _ _ _ _ hg =>
    List.foldlRecOn _ _ hg fun g hg f _ => hedge _ _ (hnode g f hg)
  unfold annotate
  generalize (m.defined g.program).flatMap m.sites = sites
  induction sites generalizing g with
  | nil => exact hg
  | cons entry rest ih =>
    obtain ⟨id, site⟩ := entry
    rw [annotateSites]
    split
    · exact ih hg
    · dsimp only
      split
      · exact hg
      · refine ih (hall _ _ _ _ _ (hall _ _ _ _ _ ?_))
        split
        · exact hedge _ _ hg
        · exact hg

/-- The nodes are named after their functions, apart from the one for unknown
targets. -/
def Labelled (m : Model) (g : CallGraph) : Prop :=
  ∀ n, (∃ f, (g.node n).function = some f ∧ (g.node n).kind ≠ .unknown ∧ g.idOf n = m.name f) ∨
    ((g.node n).function = none ∧ (g.idOf n = unknownId ∨ g.idOf n = ""))

theorem Labelled.ensureNode (h : g.Labelled m) (f : FunctionId) :
    (g.ensureNode m f).1.Labelled m := by
  intro n
  rcases node_ensureNode_cases (g := g) (m := m) (f := f) n with hold | hnew
  · rw [idOf, hold]
    exact h n
  · rw [idOf, hnew]
    refine .inl ⟨f, rfl, ?_, rfl⟩
    show (if m.isDeclaration f then NodeRole.external else .function) ≠ .unknown
    split <;> simp

theorem labelled_build (m : Model) (p : ProgramId) : (build m p).Labelled m := by
  refine build_induction (P := Labelled m) ?_ (fun g f _ hg => hg.ensureNode f)
    fun g edge _ hg => hg
  intro n
  refine .inr ⟨(node_start n).2, ?_⟩
  simp only [idOf, start, node, Array.getD_eq_getD_getElem?, List.getElem?_toArray,
    List.getElem?_singleton]
  split <;> simp

theorem Labelled.annotate (h : g.Labelled m) (index : TypeIndex) :
    (annotate m index g).graph.Labelled m :=
  annotate_induction index (fun _ f hg => hg.ensureNode f) (fun _ _ hg => hg) h

theorem Labelled.quotable_nodeName (h : g.Labelled m) {n : NodeId} (hid : Quotable (g.idOf n)) :
    Quotable (g.nodeName m n) := by
  rcases h n with ⟨f, hf, -, hname⟩ | ⟨hnone, hunknown⟩
  · have heq : g.nodeName m n = g.idOf n := by rw [nodeName, hf, hname]
    rwa [heq]
  · have heq : g.nodeName m n = "<" ++ g.idOf n ++ ">" := by rw [nodeName, hnone]
    rw [heq]
    rcases hunknown with hunknown | hunknown <;> rw [hunknown] <;> decide

/-- A node line is quotable when the id is: the name is the id, and colours are
fixed. -/
theorem Labelled.forall_nodeStrings_iff (h : g.Labelled m) {n : NodeId} :
    (∀ s ∈ g.nodeStrings m highlighted n, Quotable s) ↔ Quotable (g.idOf n) := by
  have hcolor : Quotable (g.dotColor highlighted n) := by
    unfold dotColor
    split
    · decide
    · cases (g.node n).kind <;> decide
  simp only [nodeStrings, List.forall_mem_cons, hcolor, true_and]
  exact ⟨fun hall => hall.1, fun hid => ⟨hid, h.quotable_nodeName hid, by simp⟩⟩

theorem forall_edgeStrings_iff {edge : Edge} :
    (∀ s ∈ g.edgeStrings edge, Quotable s) ↔
      Quotable (g.idOf edge.caller) ∧ Quotable (g.idOf edge.callee) := by
  have hword : Quotable edge.resolution.word := by cases edge.resolution <;> decide
  simp [edgeStrings, hword]

/-- The strings of a drawing are quotable when the title and the ids are. -/
theorem Labelled.forall_dotStrings_iff (h : g.Labelled m) (htidy : g.Tidy) :
    (∀ s ∈ g.dotStrings m title highlighted, Quotable s) ↔
      Quotable title ∧ ∀ n ∈ g.members, Quotable (g.idOf n) := by
  have htitle : (∀ s ∈ if title.isEmpty then [] else [title], Quotable s) ↔ Quotable title := by
    split
    · rename_i hempty
      have hquotable : Quotable title := by
        rw [String.isEmpty_iff.1 hempty]
        decide
      simp [hquotable]
    · simp
  have hfont : Quotable "Helvetica" := by decide
  simp only [dotStrings, List.forall_mem_append, List.forall_mem_flatMap, htitle,
    List.forall_mem_singleton, hfont, h.forall_nodeStrings_iff, forall_edgeStrings_iff, and_true,
    List.mem_filter]
  constructor
  · rintro ⟨⟨hquotable, hnodes⟩, -⟩
    refine ⟨hquotable, fun n hn => ?_⟩
    rcases h n with ⟨f, -, hkind, -⟩ | ⟨-, hunknown⟩
    · exact hnodes n ⟨hn, by simp [isShown, hkind]⟩
    · -- Only this node may be hidden.
      rcases hunknown with hid | hid <;> rw [hid] <;> decide
  · rintro ⟨hquotable, hids⟩
    exact ⟨⟨hquotable, fun n hn => hids n hn.1⟩, fun edge hedge =>
      ⟨hids _ (htidy.caller_mem edge hedge), hids _ (htidy.callee_mem edge hedge)⟩⟩

/-- What can be read back from a drawing, and what cannot. -/
structure ReadBack (m : Model) (g : CallGraph) (title : String) (highlighted : List String) :
    Prop where
  /-- The drawing as a whole is right when the title and all ids are quotable. -/
  text : quotedStrings (g.dot m title highlighted) = some (g.dotStrings m title highlighted) ↔
    Quotable title ∧ ∀ n ∈ g.members, Quotable (g.idOf n)
  node : ∀ n ∈ g.members,
    quotedStrings (g.dotNode m highlighted n) = some (g.nodeStrings m highlighted n) ↔
      Quotable (g.idOf n)
  /-- By itself a label is right for more names than an id is. -/
  label : ∀ n ∈ g.members,
    quotedStrings (dotRaw (dotEscape (g.nodeName m n))) = some [g.nodeName m n] ↔
      Escapable (g.nodeName m n)
  edge : ∀ edge ∈ g.edges.toList, quotedStrings (g.dotEdge edge) = some (g.edgeStrings edge) ↔
    Quotable (g.idOf edge.caller) ∧ Quotable (g.idOf edge.callee)
  /-- Two nodes with quotable ids have different lines. -/
  node_inj : ∀ n ∈ g.members, ∀ k ∈ g.members, Quotable (g.idOf n) → Quotable (g.idOf k) →
    g.dotNode m highlighted n = g.dotNode m highlighted k → n = k
  /-- Edges between nodes with quotable ids have different lines unless they join
  the same nodes in the same way. -/
  edge_inj : ∀ edge ∈ g.edges.toList, ∀ other ∈ g.edges.toList,
    Quotable (g.idOf edge.caller) ∧ Quotable (g.idOf edge.callee) →
    Quotable (g.idOf other.caller) ∧ Quotable (g.idOf other.callee) →
    g.dotEdge edge = g.dotEdge other → edge.caller = other.caller ∧ edge.callee = other.callee

/-- A graph whose nodes are named after their functions. -/
theorem Labelled.readBack (h : g.Labelled m) (htidy : g.Tidy) (title : String)
    (highlighted : List String) : g.ReadBack m title highlighted := by
  have hnode (n : NodeId) :
      quotedStrings (g.dotNode m highlighted n) = some (g.nodeStrings m highlighted n) ↔
        Quotable (g.idOf n) := by
    rw [(shows_dotNode n h.quotable_nodeName).quotedStrings_iff, h.forall_nodeStrings_iff]
  have hedge (edge : Edge) : quotedStrings (g.dotEdge edge) = some (g.edgeStrings edge) ↔
      Quotable (g.idOf edge.caller) ∧ Quotable (g.idOf edge.callee) := by
    rw [(shows_dotEdge edge).quotedStrings_iff, forall_edgeStrings_iff]
  refine
    { text := ?_
      node := fun n _ => hnode n
      label := fun n _ => quotedStrings_dotEscape_iff _
      edge := fun edge _ => hedge edge
      node_inj := fun n hn k hk hnq hkq hline => ?_
      edge_inj := fun edge hmem other hother hq hoq hline => ?_ }
  · rw [(shows_dot fun n _ => h.quotable_nodeName).quotedStrings_iff, h.forall_dotStrings_iff htidy]
  · -- The lines are the same text, and reading gives the id of either node first.
    have hread := (hnode n).2 hnq
    rw [hline, (hnode k).2 hkq] at hread
    exact htidy.eq_of_idOf_eq hn hk (List.cons.inj (Option.some.inj hread)).1.symm
  · have hread := (hedge edge).2 hq
    rw [hline, (hedge other).2 hoq] at hread
    obtain ⟨hcaller, hrest⟩ := List.cons.inj (Option.some.inj hread)
    exact ⟨htidy.eq_of_idOf_eq (htidy.caller_mem edge hmem) (htidy.caller_mem other hother)
        hcaller.symm,
      htidy.eq_of_idOf_eq (htidy.callee_mem edge hmem) (htidy.callee_mem other hother)
        (List.cons.inj hrest).1.symm⟩

/-- The drawing of the graph of any program, annotated or not: ids and the title are
read back exactly where they are quotable, and labels where they are escapable.
Where the ids are quotable the lines tell the nodes apart. -/
theorem readBack_dot (m : Model) (p : ProgramId) (indexes : List TypeIndex) (title : String)
    (highlighted : List String) :
    (indexes.foldl (fun g index => (annotate m index g).graph) (build m p)).ReadBack m title
      highlighted := by
  have hkept : ∀ g : CallGraph, g.Labelled m → g.Tidy →
      (indexes.foldl (fun g index => (annotate m index g).graph) g).Labelled m ∧
        (indexes.foldl (fun g index => (annotate m index g).graph) g).Tidy := by
    induction indexes with
    | nil => exact fun g hlabelled htidy => ⟨hlabelled, htidy⟩
    | cons index rest ih =>
      exact fun g hlabelled htidy =>
        ih _ (hlabelled.annotate index) ((annotates_annotate htidy m index).tidy htidy)
  obtain ⟨hlabelled, htidy⟩ := hkept _ (labelled_build m p) (tidy_build m p)
  exact hlabelled.readBack htidy title highlighted

/-- The names of the small program are quotable, and so its drawing is read
back. -/
theorem readBack_dot_relay :
    quotedStrings ((buildAnnotated Model.Relay.model ⟨0⟩).graph.dot Model.Relay.model "calls"
        ["main"]) =
      some ((buildAnnotated Model.Relay.model ⟨0⟩).graph.dotStrings Model.Relay.model "calls"
        ["main"]) := by
  have hp : Annotatable Model.Relay.model ⟨0⟩ := ⟨Model.Relay.made.coherent, rfl, rfl⟩
  have hids : ∀ n ∈ (buildAnnotated Model.Relay.model ⟨0⟩).graph.members,
      Quotable ((buildAnnotated Model.Relay.model ⟨0⟩).graph.idOf n) := by
    rw [hp.annotate_eq.1]
    show ∀ n ∈ (build Model.Relay.model ⟨0⟩).members,
      Quotable ((build Model.Relay.model ⟨0⟩).idOf n)
    decide
  exact (readBack_dot Model.Relay.model ⟨0⟩ [TypeIndex.ofProgram Model.Relay.model ⟨0⟩] "calls"
    ["main"]).text.2 ⟨by decide, hids⟩

/-! ## Names that are misread -/

namespace Tangle

/-- The edits that make a program whose names look like pieces of a drawing: `x`
calls a function whose name ends in `z`, and one whose name begins with `x` calls
`z`. -/
def edits : List Edit :=
  [.newProgram "tangle", .create ⟨0⟩ "x" Model.Relay.worker true,
   .create ⟨0⟩ "y\" -> \"z" Model.Relay.worker false,
   .create ⟨0⟩ "x\" -> \"y" Model.Relay.worker true, .create ⟨0⟩ "z" Model.Relay.worker false,
   .newBlock ⟨0⟩ none, .newCall ⟨⟨0⟩, 0⟩ (.function ⟨1⟩) [] none .call,
   .newBlock ⟨2⟩ none, .newCall ⟨⟨2⟩, 0⟩ (.function ⟨3⟩) [] none .call]

/-- The model that these edits make. -/
def model : Model where
  functions := #[
    ⟨"x", Model.Relay.worker, some [⟨"bb0", [⟨.function ⟨1⟩, some Model.Relay.worker, [], .call⟩]⟩],
      some ⟨0⟩⟩,
    ⟨"y\" -> \"z", Model.Relay.worker, none, some ⟨0⟩⟩,
    ⟨"x\" -> \"y", Model.Relay.worker,
      some [⟨"bb0", [⟨.function ⟨3⟩, some Model.Relay.worker, [], .call⟩]⟩], some ⟨0⟩⟩,
    ⟨"z", Model.Relay.worker, none, some ⟨0⟩⟩]
  programs := #[⟨"tangle", 8, [("x", ⟨0⟩), ("y\" -> \"z", ⟨1⟩), ("x\" -> \"y", ⟨2⟩), ("z", ⟨3⟩)]⟩]

theorem made : model.Made :=
  Model.Made.empty.applyAll (show Edit.applyAll .empty edits = some model from rfl)

end Tangle

/-- A drawing is not always read back, and two edges between different nodes can
have the same line. -/
theorem exists_dot_misread :
    ∃ m : Model, m.Made ∧ m.checkRefs ⟨0⟩ = .ok () ∧
      quotedStrings ((build m ⟨0⟩).dot m "" []) ≠ some ((build m ⟨0⟩).dotStrings m "" []) ∧
      ∃ edge ∈ (build m ⟨0⟩).edges.toList, ∃ other ∈ (build m ⟨0⟩).edges.toList,
        edge.caller ≠ other.caller ∧ edge.callee ≠ other.callee ∧
          (build m ⟨0⟩).dotEdge edge = (build m ⟨0⟩).dotEdge other := by
  refine ⟨Tangle.model, Tangle.made, rfl, fun hread => ?_, ?_⟩
  · have hlabelled := labelled_build Tangle.model ⟨0⟩
    rw [(shows_dot fun n _ => hlabelled.quotable_nodeName).quotedStrings_iff,
      hlabelled.forall_dotStrings_iff (tidy_build _ _)] at hread
    have hnot : ¬Quotable ((build Tangle.model ⟨0⟩).idOf ⟨2⟩) := by decide
    exact hnot (hread.2 ⟨2⟩ (by decide))
  · refine ⟨⟨⟨1⟩, ⟨2⟩, some ⟨⟨⟨0⟩, 0⟩, 0⟩, .direct⟩, by decide,
      ⟨⟨3⟩, ⟨4⟩, some ⟨⟨⟨2⟩, 0⟩, 0⟩, .direct⟩, by decide, by decide, by decide, by decide⟩

end CallGraph

end CallReach
