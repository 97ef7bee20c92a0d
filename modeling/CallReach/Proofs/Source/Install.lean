import Mathlib.Data.List.Forall2
import CallReach.Proofs.Model.Members
import CallReach.Source.Install

/-!
# The model of a source

Installing a source makes all its functions and then fills their bodies, call by
call.  Every such step moves a revision and changes one function, so what a
model shows in the end is not written anywhere; this module says it.

* `Program.Closed`: no two functions have one name, and calls name functions of
  the source alone.
* `Model.withBody` gives a function its blocks at once.  Filling a body is one
  such step (`foldl_newBlock`), and the functions are filled one after the other
  (`foldl_addBody`).
* `Program.edits` lists the edits that installing stands for, in order.  None of
  them is refused when the source is closed.
* `Program.Shown` is the result: functions, blocks and call sites in the order
  of the source, names resolved in the program itself, and the revision.
-/

namespace CallReach

/-! ## Bodies that are set at once -/

namespace Model

variable {m : Model} {p : ProgramId} {f g : FunctionId} {blocks : List Block} {edits : Nat}

/-- The model with other blocks for a function, and with the revision of a
program moved on. -/
def withBody (m : Model) (p : ProgramId) (f : FunctionId) (blocks : List Block) (edits : Nat) :
    Model :=
  (m.modifyFunction f fun function => { function with body := some blocks }).modifyProgram p
    fun program => { program with revision := program.revision + edits }

theorem function_withBody_self (hf : m.HasFunction f) :
    (m.withBody p f blocks edits).function f = { m.function f with body := some blocks } :=
  function_modifyFunction_self hf

theorem function_withBody_of_ne (h : g ≠ f) :
    (m.withBody p f blocks edits).function g = m.function g :=
  function_modifyFunction_of_ne h

theorem program_withBody (hp : m.HasProgram p) :
    (m.withBody p f blocks edits).program p =
      { m.program p with revision := (m.program p).revision + edits } :=
  program_modifyProgram_self hp

@[simp]
theorem hasFunction_withBody : (m.withBody p f blocks edits).HasFunction g ↔ m.HasFunction g := by
  simp [HasFunction, withBody, modifyFunction, modifyProgram]

@[simp]
theorem hasProgram_withBody {q : ProgramId} :
    (m.withBody p f blocks edits).HasProgram q ↔ m.HasProgram q := by
  simp [HasProgram, withBody, modifyFunction, modifyProgram]

theorem type_withBody (hf : m.HasFunction f) :
    (m.withBody p f blocks edits).type g = m.type g := by
  by_cases h : g = f
  · rw [type, h, function_withBody_self hf, type]
  · rw [type, function_withBody_of_ne h, type]

theorem find?_withBody (hp : m.HasProgram p) (name : String) :
    (m.withBody p f blocks edits).find? p name = m.find? p name := by
  rw [find?, program_withBody hp, find?]

/-- A body that is there can be set again. -/
theorem withBody_self (hbody : (m.function f).body = some blocks) :
    m.withBody p f blocks 0 = m := by
  have hfunctions : m.functions.modify f.index
      (fun function => { function with body := some blocks }) = m.functions := by
    refine Array.ext (by simp) fun i hi hi' => ?_
    rw [Array.getElem_modify]
    split
    · rename_i heq
      subst heq
      have hget : m.function f = m.functions[f.index] := by
        simp [function, Array.getD, hi']
      rw [← hget, ← hbody]
    · rfl
  have hprograms : m.programs.modify p.index
      (fun program => { program with revision := program.revision + 0 }) = m.programs := by
    refine Array.ext (by simp) fun i hi hi' => ?_
    rw [Array.getElem_modify]
    split <;> rfl
  rw [withBody, modifyFunction, modifyProgram, hfunctions, hprograms]

/-- Two changes of one place are one change. -/
theorem modify_modify {α : Type} (items : Array α) (i : Nat) (first second : α → α) :
    (items.modify i first).modify i second = items.modify i (second ∘ first) := by
  refine Array.ext (by simp) fun j hj hj' => ?_
  simp only [Array.getElem_modify]
  split <;> rfl

/-- Reworking a body is setting it. -/
theorem reworkBody_withBody (hf : m.HasFunction f) (howner : m.owner f = some p)
    (change : List Block → List Block) :
    (m.withBody p f blocks edits).reworkBody f change =
      m.withBody p f (change blocks) (edits + 1) := by
  have hnow : ((m.withBody p f blocks edits).modifyFunction f fun function =>
      { function with body := function.body.map change }).owner f = some p := by
    rw [owner, function_modifyFunction_self (by simpa using hf), function_withBody_self hf]
    exact howner
  rw [reworkBody, bumpRevision, hnow]
  simp only [withBody, advance, modifyFunction, modifyProgram, modify_modify]
  rfl

end Model

namespace Source

variable {m : Model} {p : ProgramId} {f : FunctionId}

/-! ## Call sites -/

/-- The call site that a call becomes. -/
def Call.site (m : Model) (p : ProgramId) (call : Call) : CallSite where
  callee := (call.target.resolve m p).1
  calledType :=
    match (call.target.resolve m p).2, (call.target.resolve m p).1 with
    | none, .function g => some (m.type g)
    | given, _ => given
  arguments := call.arguments.filterMap (·.resolve m p)
  kind := call.kind

/-- The block that a block becomes at a position. -/
def Block.placed (m : Model) (p : ProgramId) (block : Block) (position : Nat) :
    CallReach.Block where
  name := if block.name.isEmpty then "bb" ++ toString position else block.name
  sites := block.calls.map (·.site m p)

/-- The blocks from a position on. -/
def placeBlocks (m : Model) (p : ProgramId) (blocks : List Block) (position : Nat) :
    List CallReach.Block :=
  (blocks.zipIdx position).map fun (block, i) => block.placed m p i

/-- The edit that adds a call to a block. -/
def Call.edit (m : Model) (p : ProgramId) (b : BlockId) (call : Call) : Edit :=
  .newCall b (call.target.resolve m p).1 (call.arguments.filterMap (·.resolve m p))
    (call.target.resolve m p).2 call.kind

/-- The edits that add a block at a position. -/
def Block.edits (m : Model) (p : ProgramId) (f : FunctionId) (block : Block) (position : Nat) :
    List Edit :=
  .newBlock f (some block.name) :: block.calls.map (·.edit m p ⟨f, position⟩)

/-- The edits that add blocks from a position on. -/
def blockEdits (m : Model) (p : ProgramId) (f : FunctionId) (blocks : List Block)
    (position : Nat) : List Edit :=
  (blocks.zipIdx position).flatMap fun (block, i) => block.edits m p f i

/-- What a call becomes depends on the names and the types of the program
alone. -/
theorem Call.edit_congr {other : Model} (hfind : ∀ name, other.find? p name = m.find? p name)
    (b : BlockId) (call : Call) : call.edit other p b = call.edit m p b := by
  have htarget : call.target.resolve other p = call.target.resolve m p := by
    cases call.target <;> simp [Target.resolve, hfind]
  have hargument : (fun argument : Argument => argument.resolve other p) =
      fun argument => argument.resolve m p := by
    funext argument
    cases argument <;> simp [Argument.resolve, hfind]
  simp only [Call.edit, htarget, hargument]

theorem Call.site_congr {other : Model} (hfind : ∀ name, other.find? p name = m.find? p name)
    (htype : ∀ g, other.type g = m.type g) (call : Call) : call.site other p = call.site m p := by
  have hedit := Call.edit_congr hfind ⟨⟨0⟩, 0⟩ call
  simp only [Call.edit, Edit.newCall.injEq] at hedit
  obtain ⟨-, hcallee, harguments, hgiven, -⟩ := hedit
  simp only [Call.site, hcallee, harguments, hgiven, htype]

/-! ## Filling a body -/

section Fill

variable (hf : m.HasFunction f) (hp : m.HasProgram p) (howner : m.owner f = some p)
  (before : List CallReach.Block) (edits : Nat)

include hf hp howner

/-- A call puts its site at the end of the last block, and so does the edit that
adds it. -/
theorem newCall_withBody (block : CallReach.Block) (call : Call) :
    let start := m.withBody p f (before ++ [block]) edits
    let done := m.withBody p f
      (before ++ [{ block with sites := block.sites ++ [call.site m p] }]) (edits + 1)
    newCall p ⟨f, before.length⟩ start call = done ∧
      (call.edit m p ⟨f, before.length⟩).InScope start ∧
      (call.edit m p ⟨f, before.length⟩).apply start = .ok done := by
  intro start done
  have hfind (name : String) : start.find? p name = m.find? p name :=
    Model.find?_withBody hp name
  have hdone : newCall p ⟨f, before.length⟩ start call = done := by
    have hsite : call.site start p = call.site m p :=
      call.site_congr hfind fun _ => Model.type_withBody hf
    have hrework : newCall p ⟨f, before.length⟩ start call =
        start.reworkBody f fun blocks => blocks.modify before.length fun block =>
          { block with sites := block.sites ++ [call.site start p] } := rfl
    rw [hrework, hsite, Model.reworkBody_withBody hf howner]
    simp [done, List.modify_eq_take_drop]
  refine ⟨hdone, ⟨by simpa [start] using hf, ?_⟩, ?_⟩
  · simp [Model.blocks, start, Model.function_withBody_self hf]
  · rw [← call.edit_congr hfind, ← hdone]
    rfl

theorem foldl_newCall (block : CallReach.Block) (calls : List Call) :
    let start := m.withBody p f (before ++ [block]) edits
    let done := m.withBody p f
      (before ++ [{ block with sites := block.sites ++ calls.map (·.site m p) }])
      (edits + calls.length)
    calls.foldl (newCall p ⟨f, before.length⟩) start = done ∧
      Edit.applyAll start (calls.map (·.edit m p ⟨f, before.length⟩)) = some done := by
  induction calls generalizing block edits with
  | nil => simp [Edit.applyAll]
  | cons call rest ih =>
    obtain ⟨hcall, hscope, happly⟩ := newCall_withBody hf hp howner before edits block call
    obtain ⟨hfold, hedits⟩ := ih (edits + 1) { block with sites := block.sites ++ [call.site m p] }
    have hcount : edits + (rest.length + 1) = edits + 1 + rest.length := by omega
    simp only [List.foldl_cons, List.map_cons, List.length_cons, hcall, hcount,
      Edit.applyAll_cons hscope happly, hfold, hedits]
    simp

/-- A block goes to the end of the body, with all its calls. -/
theorem newBlock_withBody (block : Block) :
    let start := m.withBody p f before edits
    let done := m.withBody p f (before ++ [block.placed m p before.length])
      (edits + 1 + block.calls.length)
    newBlock p f start block = done ∧
      Edit.applyAll start (block.edits m p f before.length) = some done := by
  intro start done
  have hblocks : start.blocks f = before := by
    simp [Model.blocks, start, Model.function_withBody_self hf]
  have hdefined : start.isDeclaration f = false := by
    simp [Model.isDeclaration, start, Model.function_withBody_self hf]
  -- The new block is empty at first, under its final name.
  let opened : CallReach.Block := ⟨(block.placed m p before.length).name, []⟩
  have happend : start.appendBlock f (start.blockName f (some block.name)) =
      (m.withBody p f (before ++ [opened]) (edits + 1), ⟨f, before.length⟩) := by
    have hname : start.blockName f (some block.name) = opened.name := by
      simp only [Model.blockName, hblocks, opened, Block.placed]
    have hrework : (start.appendBlock f opened.name).1 = start.reworkBody f (· ++ [opened]) := rfl
    refine Prod.ext ?_ (by simp [Model.appendBlock, hblocks])
    rw [hname, hrework, Model.reworkBody_withBody hf howner]
  have happly : (Edit.newBlock f (some block.name)).apply start =
      .ok (m.withBody p f (before ++ [opened]) (edits + 1)) := by
    rw [Edit.apply_eq_ok_iff, Model.outcome_newBlock, if_neg (by simp [hdefined])]
    exact congrArg (fun made => (Except.ok (), made.1)) happend
  obtain ⟨hfold, hedits⟩ := foldl_newCall hf hp howner before (edits + 1) opened block.calls
  constructor
  · rw [newBlock, happend]
    exact hfold
  · rw [Block.edits, Edit.applyAll_cons (by simpa [Edit.InScope, start] using hf) happly]
    exact hedits

theorem foldl_newBlock (blocks : List Block) :
    let start := m.withBody p f before edits
    let done := m.withBody p f (before ++ placeBlocks m p blocks before.length)
      (edits + blocks.length + (blocks.flatMap (·.calls)).length)
    blocks.foldl (newBlock p f) start = done ∧
      Edit.applyAll start (blockEdits m p f blocks before.length) = some done := by
  induction blocks generalizing before edits with
  | nil => simp [Edit.applyAll, placeBlocks, blockEdits]
  | cons block rest ih =>
    obtain ⟨hblock, hfirst⟩ := newBlock_withBody hf hp howner before edits block
    obtain ⟨hfold, hedits⟩ := ih (before ++ [block.placed m p before.length])
      (edits + 1 + block.calls.length)
    have hcount : edits + (rest.length + 1) +
        (block.calls.length + (rest.flatMap (·.calls)).length) =
          edits + 1 + block.calls.length + rest.length + (rest.flatMap (·.calls)).length := by
      omega
    simp only [List.length_append, List.length_singleton] at hfold hedits
    simp only [placeBlocks, blockEdits, List.zipIdx_cons, List.map_cons, List.flatMap_cons,
      List.length_cons, List.length_append, List.foldl_cons, hblock, hcount]
    rw [Edit.applyAll_append hfirst]
    simpa [placeBlocks, blockEdits] using And.intro hfold hedits

end Fill

/-! ## Filling all bodies -/

/-- The blocks of a function; a declaration has none. -/
def Function.blocks (function : Function) : List Block :=
  function.body.getD []

/-- The function that a function becomes. -/
def Function.placed (m : Model) (p : ProgramId) (function : Function) : CallReach.Function :=
  ⟨function.name, function.type, function.body.map (placeBlocks m p · 0), some p⟩

/-- A function of a source that has no blocks yet. -/
structure Function.Ready (m : Model) (p : ProgramId) (f : FunctionId) (function : Function) :
    Prop where
  has : m.HasFunction f
  eq : m.function f = ⟨function.name, function.type, function.body.map fun _ => [], some p⟩

/-- What adding the body of a function does. -/
structure Function.Filled (m : Model) (p : ProgramId) (f : FunctionId) (function : Function)
    (done : Model) : Prop where
  self : done.function f = function.placed m p
  other : ∀ g, g ≠ f → done.function g = m.function g
  has : ∀ g, done.HasFunction g ↔ m.HasFunction g
  hasProgram : done.HasProgram p
  program : done.program p =
    { m.program p with
      revision := (m.program p).revision + function.blocks.length +
        (function.blocks.flatMap (·.calls)).length }
  edits : Edit.applyAll m (blockEdits m p f function.blocks 0) = some done

theorem filled_addBody {function : Function} (hp : m.HasProgram p) (h : function.Ready m p f) :
    function.Filled m p f (addBody p m (f, function)) := by
  cases hbody : function.body with
  | none =>
    have hnone : function.blocks = [] := by simp [Function.blocks, hbody]
    have hself : addBody p m (f, function) = m := by simp [addBody, hbody]
    rw [hself]
    refine ⟨?_, fun _ _ => rfl, fun _ => Iff.rfl, hp, by simp [hnone], by
      simp [hnone, blockEdits, Edit.applyAll]⟩
    simp [h.eq, Function.placed, hbody]
  | some blocks =>
    have hblocks : function.blocks = blocks := by simp [Function.blocks, hbody]
    have howner : m.owner f = some p := by rw [Model.owner, h.eq]
    have hstart : m.withBody p f [] 0 = m := Model.withBody_self (by simp [h.eq, hbody])
    obtain ⟨hfold, hedits⟩ := foldl_newBlock h.has hp howner [] 0 blocks
    simp only [hstart, List.nil_append, List.length_nil, Nat.zero_add] at hfold hedits
    have hdone : addBody p m (f, function) = m.withBody p f (placeBlocks m p blocks 0)
        (blocks.length + (blocks.flatMap (·.calls)).length) := by
      simp only [addBody, hbody, Option.getD_some, hfold]
    rw [hdone]
    refine ⟨?_, fun g hg => Model.function_withBody_of_ne hg, fun g => by simp, by simpa using hp,
      ?_, by rw [hblocks, hedits]⟩
    · rw [Model.function_withBody_self h.has, h.eq]
      simp [Function.placed, hbody]
    · rw [Model.program_withBody hp, hblocks, Nat.add_assoc]

/-- What the functions of a program become is settled before the first body is
added: bodies change neither names nor types. -/
theorem Function.placed_congr {other : Model}
    (hfind : ∀ name, other.find? p name = m.find? p name) (htype : ∀ g, other.type g = m.type g)
    (function : Function) : function.placed other p = function.placed m p := by
  simp only [Function.placed, placeBlocks, Block.placed, Call.site_congr hfind htype]

theorem blockEdits_congr {other : Model}
    (hfind : ∀ name, other.find? p name = m.find? p name) (blocks : List Block)
    (position : Nat) : blockEdits other p f blocks position = blockEdits m p f blocks position := by
  simp only [blockEdits, Block.edits, Call.edit_congr hfind]

theorem Function.Filled.find?_eq {function : Function} {done : Model}
    (h : function.Filled m p f done) (name : String) : done.find? p name = m.find? p name := by
  rw [Model.find?, h.program, Model.find?]

theorem Function.Filled.type_eq {function : Function} {done : Model}
    (h : function.Filled m p f done) (hready : function.Ready m p f) (g : FunctionId) :
    done.type g = m.type g := by
  by_cases hg : g = f
  · rw [Model.type, hg, h.self, Model.type, hready.eq, Function.placed]
  · rw [Model.type, h.other g hg, Model.type]

/-- Bodies are added one after the other, and each one to its own function. -/
theorem foldl_addBody (entries : List (FunctionId × Function)) (hp : m.HasProgram p)
    (hids : (entries.map (·.1)).Nodup) (hready : ∀ e ∈ entries, e.2.Ready m p e.1) :
    let done := entries.foldl (addBody p) m
    (∀ e ∈ entries, done.function e.1 = e.2.placed m p) ∧
      (∀ g, g ∉ entries.map (·.1) → done.function g = m.function g) ∧
      done.program p =
        { m.program p with
          revision := (m.program p).revision + (entries.flatMap (·.2.blocks)).length +
            ((entries.flatMap (·.2.blocks)).flatMap (·.calls)).length } ∧
      Edit.applyAll m (entries.flatMap fun e => blockEdits m p e.1 e.2.blocks 0) = some done := by
  induction entries generalizing m with
  | nil => simp [Edit.applyAll]
  | cons entry rest ih =>
    have hentry := hready entry List.mem_cons_self
    have hfilled := filled_addBody hp hentry
    simp only [List.map_cons, List.nodup_cons, List.mem_map, not_exists, not_and] at hids
    have hne {e : FunctionId × Function} (he : e ∈ rest) : e.1 ≠ entry.1 := hids.1 e he
    have hrest : ∀ e ∈ rest, e.2.Ready (addBody p m entry) p e.1 := by
      intro e he
      have hold := hready e (List.mem_cons_of_mem _ he)
      exact ⟨(hfilled.has _).2 hold.has, (hfilled.other _ (hne he)).trans hold.eq⟩
    obtain ⟨hplaced, hother, hprogram, hedits⟩ := ih hfilled.hasProgram hids.2 hrest
    have hfind := hfilled.find?_eq
    have htype := hfilled.type_eq hentry
    refine ⟨fun e he => ?_, fun g hg => ?_, ?_, ?_⟩
    · rcases List.mem_cons.1 he with rfl | he
      · refine (hother e.1 fun hmem => ?_).trans hfilled.self
        obtain ⟨e', he', heq⟩ := List.mem_map.1 hmem
        exact hne he' heq
      · exact (hplaced e he).trans (e.2.placed_congr hfind htype)
    · simp only [List.map_cons, List.mem_cons, not_or] at hg
      exact (hother g hg.2).trans (hfilled.other g hg.1)
    · rw [List.foldl_cons, hprogram, hfilled.program]
      simp only [List.flatMap_cons, List.flatMap_append, List.length_append]
      congr 1
      omega
    · simp only [blockEdits_congr hfind] at hedits
      rw [List.flatMap_cons, Edit.applyAll_append hfilled.edits]
      exact hedits

/-! ## Adding the functions -/

section Add

variable {function : Function}

/-- The edit that makes a function of a source. -/
def Function.edit (p : ProgramId) (function : Function) : Edit :=
  .create p function.name function.type function.body.isSome

/-- The model with one more function, which has no blocks yet, and that
function. -/
def Function.add (m : Model) (p : ProgramId) (function : Function) : Model × FunctionId :=
  let created := m.newFunction function.name function.type function.body.isSome
  (created.1.attach p created.2, created.2)

theorem Function.ready_add : function.Ready (function.add m p).1 p (function.add m p).2 := by
  have hhas : (m.newFunction function.name function.type function.body.isSome).1.HasFunction
      (m.newFunction function.name function.type function.body.isSome).2 :=
    Model.hasFunction_newFunction.2 (.inr rfl)
  constructor
  · exact Model.hasFunction_attach.2 hhas
  · rw [Function.add, Model.function_attach_self hhas, Model.function_newFunction_self]
    cases function.body <;> rfl

theorem Function.add_fresh : ¬m.HasFunction (function.add m p).2 := by
  simp [Function.add, Model.HasFunction, Model.newFunction]

theorem Function.function_add_of_has {g : FunctionId} (hg : m.HasFunction g) :
    (function.add m p).1.HasFunction g ∧ (function.add m p).1.function g = m.function g :=
  ⟨Model.hasFunction_attach.2 (Model.hasFunction_newFunction.2 (.inl hg)),
    Model.function_newFunction_attach_of_has hg⟩

theorem Function.program_add (hp : m.HasProgram p) :
    (function.add m p).1.program p =
      { m.program p with
        revision := (m.program p).revision + 1
        table := (m.program p).table ++ [(function.name, (function.add m p).2)] } := by
  have hcreated : (m.newFunction function.name function.type function.body.isSome).1.HasProgram p :=
    hp
  rw [Function.add, Model.program_attach_self hcreated, Model.name,
    Model.function_newFunction_self, Model.program_newFunction]

theorem Function.hasProgram_add (hp : m.HasProgram p) : (function.add m p).1.HasProgram p :=
  Model.hasProgram_attach.2 hp

/-- A function under a new name is accepted. -/
theorem Function.apply_edit (hnew : m.find? p function.name = none) :
    (function.edit p).apply m = .ok (function.add m p).1 := by
  let created := m.newFunction function.name function.type function.body.isSome
  have hself : created.1.function created.2 = ⟨function.name, function.type, _, none⟩ :=
    Model.function_newFunction_self
  have hfind : created.1.find? p (created.1.name created.2) = none := by
    rw [Model.name, hself]
    exact hnew
  have howner : created.1.owner created.2 = none := by rw [Model.owner, hself]
  rw [Function.edit, Edit.apply_eq_ok_iff, Model.outcome_create]
  exact Model.outcome_adopt_of_free hfind howner

theorem addFunctions_eq (functions : List Function) :
    addFunctions p functions m =
      functions.foldl (fun done function =>
        ((function.add done.1 p).1, done.2 ++ [(function.add done.1 p).2])) (m, []) := rfl

theorem addFunctions_cons (rest : List Function) :
    addFunctions p (function :: rest) m =
      ((addFunctions p rest (function.add m p).1).1,
        (function.add m p).2 :: (addFunctions p rest (function.add m p).1).2) := by
  -- The ids found so far stand in front of the others.
  have hids (functions : List Function) (m : Model) (ids : List FunctionId) :
      functions.foldl (fun done function =>
          ((function.add done.1 p).1, done.2 ++ [(function.add done.1 p).2])) (m, ids) =
        ((addFunctions p functions m).1, ids ++ (addFunctions p functions m).2) := by
    induction functions generalizing m ids with
    | nil => simp [addFunctions_eq]
    | cons function rest ih =>
      rw [addFunctions_eq, List.foldl_cons, List.foldl_cons, ih, ih]
      simp
  rw [addFunctions_eq, List.foldl_cons]
  exact hids rest _ [_]

/-- What adding the functions of a source does. -/
structure Added (m : Model) (p : ProgramId) (functions : List Function)
    (done : Model × List FunctionId) : Prop where
  ready : List.Forall₂ (fun f function => function.Ready done.1 p f) done.2 functions
  nodup : done.2.Nodup
  fresh : ∀ f ∈ done.2, ¬m.HasFunction f
  other : ∀ g, m.HasFunction g → done.1.HasFunction g ∧ done.1.function g = m.function g
  hasProgram : done.1.HasProgram p
  program : done.1.program p =
    { m.program p with
      revision := (m.program p).revision + functions.length
      table := (m.program p).table ++ (functions.map (·.name)).zip done.2 }
  edits : Edit.applyAll m (functions.map (·.edit p)) = some done.1

theorem added_addFunctions (functions : List Function) (hp : m.HasProgram p)
    (hnames : (functions.map (·.name)).Nodup)
    (hnew : ∀ function ∈ functions, m.find? p function.name = none) :
    Added m p functions (addFunctions p functions m) := by
  induction functions generalizing m with
  | nil =>
    exact ⟨.nil, .nil, by simp [addFunctions], fun g hg => ⟨hg, rfl⟩, hp, by simp [addFunctions],
      rfl⟩
  | cons function rest ih =>
    simp only [List.map_cons, List.nodup_cons, List.mem_map, not_exists, not_and] at hnames
    have hrest : ∀ fn ∈ rest, (function.add m p).1.find? p fn.name = none := by
      intro fn hfn
      have hne : fn.name ≠ function.name := hnames.1 fn hfn
      have hold : (m.program p).table.lookup fn.name = none := hnew fn (List.mem_cons_of_mem _ hfn)
      rw [Model.find?, Function.program_add hp, List.lookup_append, hold]
      simp [List.lookup_cons, beq_false_of_ne hne]
    have hadded := ih (Function.hasProgram_add hp) hnames.2 hrest
    rw [addFunctions_cons]
    have hnewest : function.Ready (function.add m p).1 p (function.add m p).2 :=
      Function.ready_add
    have hscope : (function.edit p).InScope m := hp
    refine ⟨.cons ?_ hadded.ready, ?_, ?_, fun g hg => ?_, hadded.hasProgram, ?_, ?_⟩
    · obtain ⟨hhas, heq⟩ := hadded.other _ hnewest.has
      exact ⟨hhas, heq.trans hnewest.eq⟩
    · exact List.nodup_cons.2 ⟨fun hmem => hadded.fresh _ hmem hnewest.has, hadded.nodup⟩
    · intro f hf hm
      rcases List.mem_cons.1 hf with rfl | hf
      · exact Function.add_fresh hm
      · exact hadded.fresh f hf (Function.function_add_of_has hm).1
    · obtain ⟨hhas, heq⟩ := Function.function_add_of_has hg
      obtain ⟨hhas', heq'⟩ := hadded.other g hhas
      exact ⟨hhas', heq'.trans heq⟩
    · rw [hadded.program, Function.program_add hp]
      simp [Nat.add_assoc, Nat.add_comm 1]
    · have happly := Function.apply_edit (hnew function List.mem_cons_self)
      rw [List.map_cons, Edit.applyAll_cons hscope happly]
      exact hadded.edits

end Add

/-! ## What a model shows -/

/-- The names of the functions of a source, in order. -/
def Program.names (source : Program) : List String :=
  source.functions.map (·.name)

/-- The blocks of a source, function by function. -/
def Program.blocks (source : Program) : List Block :=
  source.functions.flatMap (·.blocks)

/-- The calls of a source, block by block. -/
def Program.calls (source : Program) : List Call :=
  source.blocks.flatMap (·.calls)

/-- A call names functions of a list alone. -/
structure Call.Knows (names : List String) (call : Call) : Prop where
  target : ∀ name, call.target = .named name → name ∈ names
  arguments : ∀ name, .ref name ∈ call.arguments → name ∈ names

/-- No two functions have one name, and calls name functions of the source
alone. -/
structure Program.Closed (source : Program) : Prop where
  nodup : source.names.Nodup
  known : ∀ call ∈ source.calls, call.Knows source.names

theorem Program.Closed.knows {source : Program} (h : source.Closed) :
    ∀ function ∈ source.functions, ∀ block ∈ function.blocks, ∀ call ∈ block.calls,
      call.Knows source.names := by
  intro function hfunction block hblock call hcall
  refine h.known call (List.mem_flatMap.2 ⟨block, ?_, hcall⟩)
  exact List.mem_flatMap.2 ⟨function, hfunction, hblock⟩

/-- The function that a program has under a name, and whose name it is. -/
structure Named (m : Model) (p : ProgramId) (name : String) (g : FunctionId) : Prop where
  found : m.find? p name = some g
  name_eq : m.name g = name

/-- An argument, with the function of the program that it names. -/
inductive Argument.Shown (m : Model) (p : ProgramId) : Argument → CallReach.Argument → Prop where
  | ref {name : String} {g : FunctionId} (h : Named m p name g) : Shown m p (.ref name) (.ref g)
  | operand (type : Ty) (name : Option String) : Shown m p (.operand type name) (.operand type name)

/-- A target as the callee and the called type of a site.  A call to a function
has the type of that function. -/
inductive Target.Shown (m : Model) (p : ProgramId) : Target → Callee → Option Ty → Prop where
  | named {name : String} {g : FunctionId} (h : Named m p name g) :
      Shown m p (.named name) (.function g) (some (m.type g))
  | indirect (type : Ty) : Shown m p (.indirect type) .absent (some type)

/-- A call and its site. -/
structure Call.Shown (m : Model) (p : ProgramId) (call : Call) (site : CallSite) : Prop where
  kind : site.kind = call.kind
  target : call.target.Shown m p site.callee site.calledType
  arguments : List.Forall₂ (Argument.Shown m p) call.arguments site.arguments

/-- A block and what it is at its position.  An empty name is replaced by one
made of the position. -/
structure Block.Shown (m : Model) (p : ProgramId) (placed : Block × Nat)
    (block : CallReach.Block) : Prop where
  name : block.name = if placed.1.name = "" then "bb" ++ toString placed.2 else placed.1.name
  sites : List.Forall₂ (Call.Shown m p) placed.1.calls block.sites

/-- A function of a source and one of the model. -/
structure Function.Shown (m : Model) (p : ProgramId) (function : Function) (f : FunctionId) :
    Prop where
  name : m.name f = function.name
  type : m.type f = function.type
  owner : m.owner f = some p
  body : Option.Rel (fun blocks => List.Forall₂ (Block.Shown m p) blocks.zipIdx) function.body
    (m.function f).body

/-- A program of the model has exactly what the source has, in its order, and
its revision counts the functions, the blocks and the calls. -/
structure Program.Shown (m : Model) (p : ProgramId) (source : Program) : Prop where
  name : (m.program p).name = source.name
  functions : List.Forall₂ (Function.Shown m p) source.functions (m.members p)
  revision : (m.program p).revision =
    source.functions.length + source.blocks.length + source.calls.length

section Shown

variable {names : List String} (hnamed : ∀ name ∈ names, ∃ g, Named m p name g)

include hnamed

theorem Call.shown_site {call : Call} (hknows : call.Knows names) :
    call.Shown m p (call.site m p) := by
  obtain ⟨kind, target, arguments⟩ := call
  refine ⟨rfl, ?_, ?_⟩
  · cases target with
    | named name =>
      obtain ⟨g, hg⟩ := hnamed name (hknows.target name rfl)
      simp only [Call.site, Target.resolve, hg.found]
      exact .named hg
    | indirect type => exact .indirect type
  · have hknown := hknows.arguments
    simp only [Call.site] at hknown ⊢
    clear hknows
    induction arguments with
    | nil => exact .nil
    | cons argument rest ih =>
      have hrest := ih fun name hname => hknown name (List.mem_cons_of_mem _ hname)
      cases argument with
      | ref name =>
        obtain ⟨g, hg⟩ := hnamed name (hknown name List.mem_cons_self)
        simp only [List.filterMap_cons, Argument.resolve, hg.found, Option.map_some]
        exact .cons (.ref hg) hrest
      | operand type name =>
        simp only [List.filterMap_cons, Argument.resolve]
        exact .cons (.operand type name) hrest

theorem Block.shown_placed {block : Block} (hknows : ∀ call ∈ block.calls, call.Knows names)
    (position : Nat) : Block.Shown m p (block, position) (block.placed m p position) := by
  refine ⟨by simp [Block.placed, String.isEmpty_iff], ?_⟩
  rw [Block.placed, List.forall₂_map_right_iff, List.forall₂_same]
  exact fun call hcall => Call.shown_site hnamed (hknows call hcall)

theorem shown_placeBlocks {blocks : List Block}
    (hknows : ∀ block ∈ blocks, ∀ call ∈ block.calls, call.Knows names) :
    List.Forall₂ (Block.Shown m p) blocks.zipIdx (placeBlocks m p blocks 0) := by
  rw [placeBlocks, List.forall₂_map_right_iff, List.forall₂_same]
  intro placed hplaced
  exact Block.shown_placed hnamed (hknows placed.1 (List.fst_mem_of_mem_zipIdx hplaced)) placed.2

end Shown

/-! ## Installing -/

/-- The edits that installing a source stands for: the program, its functions,
and then their blocks with their calls. -/
def Program.edits (source : Program) (m : Model) : List Edit :=
  let p : ProgramId := ⟨m.programs.size⟩
  let added := addFunctions p source.functions (m.newProgram source.name).1
  .newProgram source.name :: (source.functions.map (·.edit p) ++
    (added.2.zip source.functions).flatMap fun e => blockEdits added.1 p e.1 e.2.blocks 0)

/-- Every function has its name once all are there. -/
theorem Added.exists_named {functions : List Function} {done : Model × List FunctionId}
    (h : Added m p functions done) (hnames : (functions.map (·.name)).Nodup)
    (htable : (m.program p).table = []) :
    ∀ name ∈ functions.map (·.name), ∃ g, Named done.1 p name g := by
  intro name hname
  have hlength : (functions.map (·.name)).length = done.2.length := by
    rw [List.length_map, h.ready.length_eq]
  have hkeys : ((functions.map (·.name)).zip done.2).map Prod.fst = functions.map (·.name) :=
    List.map_fst_zip (Nat.le_of_eq hlength)
  have hown : List.Forall₂ (fun name f => done.1.name f = name) (functions.map (·.name))
      done.2 := by
    rw [List.forall₂_map_left_iff]
    exact h.ready.flip.imp fun function f hready => by rw [Model.name, hready.eq]
  rw [← hkeys] at hname hnames
  obtain ⟨entry, hentry, rfl⟩ := List.mem_map.1 hname
  refine ⟨entry.2, ?_, (List.forall₂_iff_zip.1 hown).2 hentry⟩
  rw [Model.find?, h.program, htable, List.nil_append]
  exact Table.lookup_of_mem hnames hentry

/-- What the functions of a program become: the source, name for name. -/
theorem Function.shown_of_placed {function : Function} {names : List String}
    (hnamed : ∀ name ∈ names, ∃ g, Named m p name g)
    (hknows : ∀ block ∈ function.blocks, ∀ call ∈ block.calls, call.Knows names)
    (hplaced : m.function f = function.placed m p) : function.Shown m p f := by
  refine ⟨by rw [Model.name, hplaced]; rfl, by rw [Model.type, hplaced]; rfl,
    by rw [Model.owner, hplaced]; rfl, ?_⟩
  rw [hplaced, Function.placed]
  cases hbody : function.body with
  | none => exact .none
  | some blocks =>
    refine .some (shown_placeBlocks hnamed fun block hblock => hknows block ?_)
    simpa [Function.blocks, hbody] using hblock

/-- The bodies, added to functions that were just added. -/
theorem Added.foldl_addBody {functions : List Function} {added : Model × List FunctionId}
    (h : Added m p functions added) :
    let done := (added.2.zip functions).foldl (addBody p) added.1
    List.Forall₂ (fun f function => done.function f = function.placed done p) added.2 functions ∧
      (∀ name g, Named added.1 p name g → Named done p name g) ∧
      done.program p =
        { added.1.program p with
          revision := (added.1.program p).revision + (functions.flatMap (·.blocks)).length +
            ((functions.flatMap (·.blocks)).flatMap (·.calls)).length } ∧
      Edit.applyAll added.1 ((added.2.zip functions).flatMap fun e =>
        blockEdits added.1 p e.1 e.2.blocks 0) = some done := by
  intro done
  have hlength : added.2.length = functions.length := h.ready.length_eq
  have hids : (added.2.zip functions).map Prod.fst = added.2 :=
    List.map_fst_zip (Nat.le_of_eq hlength)
  have hfunctions : (added.2.zip functions).map Prod.snd = functions :=
    List.map_snd_zip (Nat.le_of_eq hlength.symm)
  have hready : ∀ e ∈ added.2.zip functions, e.2.Ready added.1 p e.1 := fun e he =>
    (List.forall₂_iff_zip.1 h.ready).2 he
  obtain ⟨hplaced, hother, hprogram, hedits⟩ :=
    Source.foldl_addBody (added.2.zip functions) h.hasProgram (hids.symm ▸ h.nodup) hready
  have hfind (name : String) : done.find? p name = added.1.find? p name := by
    rw [Model.find?, hprogram, Model.find?]
  have hsame (g : FunctionId) : done.name g = added.1.name g ∧ done.type g = added.1.type g := by
    simp only [Model.name, Model.type]
    by_cases hg : g ∈ (added.2.zip functions).map Prod.fst
    · obtain ⟨e, he, rfl⟩ := List.mem_map.1 hg
      rw [hplaced e he, (hready e he).eq]
      exact ⟨rfl, rfl⟩
    · rw [hother g hg]
      exact ⟨rfl, rfl⟩
  have hblocks : (added.2.zip functions).flatMap (·.2.blocks) = functions.flatMap (·.blocks) := by
    nth_rewrite 2 [← hfunctions]
    rw [List.flatMap_map]
  refine ⟨List.forall₂_iff_zip.2 ⟨hlength, fun {f function} he => ?_⟩, fun name g hg => ?_,
    hblocks ▸ hprogram, hedits⟩
  · have hcongr := function.placed_congr hfind fun g => (hsame g).2
    exact (hplaced (f, function) he).trans hcongr.symm
  · exact ⟨(hfind name).trans hg.found, (hsame g).1.trans hg.name_eq⟩

/-- A closed source is installed as it is, and no edit on the way is refused. -/
theorem Program.shown_install {source : Program} (hclosed : source.Closed) (m : Model) :
    source.Shown (source.install m).1 (source.install m).2 ∧
      Edit.applyAll m (source.edits m) = some (source.install m).1 := by
  let p : ProgramId := ⟨m.programs.size⟩
  let start := (m.newProgram source.name).1
  have hp : start.HasProgram p := by simp [start, p, Model.HasProgram, Model.newProgram]
  have hprogram : start.program p = ⟨source.name, 0, []⟩ := by
    simp [start, p, Model.program, Model.newProgram]
  have hadded := added_addFunctions source.functions hp hclosed.nodup fun function _ => by
    simp [Model.find?, hprogram]
  let added := addFunctions p source.functions start
  obtain ⟨hplaced, hkept, hdone, hbodies⟩ := hadded.foldl_addBody
  let done := (added.2.zip source.functions).foldl (addBody p) added.1
  have hlength : added.2.length = source.functions.length := hadded.ready.length_eq
  have hnamed (name : String) (hname : name ∈ source.names) : ∃ g, Named done p name g := by
    obtain ⟨g, hg⟩ := hadded.exists_named hclosed.nodup (by rw [hprogram]) name hname
    exact ⟨g, hkept name g hg⟩
  have hshown : List.Forall₂ (Function.Shown done p) source.functions added.2 := by
    refine List.Forall₂.flip (List.forall₂_iff_zip.2 ⟨hlength, fun {f function} he => ?_⟩)
    have hfunction : function ∈ source.functions := (List.of_mem_zip he).2
    exact Function.shown_of_placed hnamed (hclosed.knows function hfunction)
      ((List.forall₂_iff_zip.1 hplaced).2 he)
  have hmembers : done.members p = added.2 := by
    rw [Model.members, hdone, hadded.program, hprogram, List.nil_append]
    exact List.map_snd_zip (by rw [List.length_map]; exact Nat.le_of_eq hlength)
  have hname : (done.program p).name = source.name := by
    rw [hdone, hadded.program, hprogram]
  have hrevision : (done.program p).revision =
      source.functions.length + source.blocks.length + source.calls.length := by
    rw [hdone, hadded.program, hprogram, Nat.zero_add]
    rfl
  have hscope : (Edit.newProgram source.name).InScope m := trivial
  have happly : (Edit.newProgram source.name).apply m = .ok start := rfl
  refine ⟨⟨hname, hmembers.symm ▸ hshown, hrevision⟩, ?_⟩
  rw [Program.edits, Edit.applyAll_cons hscope happly, Edit.applyAll_append hadded.edits]
  exact hbodies

end Source

end CallReach
