import CJson.HeapDocuments
import CJson.ParsedTrees

/-!
# The trees that constructors make

A constructor that returns a node has made a tree, and it is the tree that the
function on trees makes: a leaf with its fields, an array of leaves, what the
parser has read, or the copy of a tree.
-/

namespace CJson

open CString

namespace Heap

open OrderedForest

variable {heap after : Heap} {forest larger : OrderedForest Addr} {stage : Addr -> Stage} {top : Addr} {item : Item}

/-- A node without children. -/
def leaf (fields : Fields) : Item := .mk fields [] .null

/-- A node with these children. -/
def branch (fields : Fields) (child : List Item) : Item := .mk fields child (.ofList child)

theorem ofList_linked (child : List Item) : child ≠ [] -> HeadPrev.ofList child = .at (child.length - 1) := by
  intro nonempty
  rw [HeadPrev.ofList, if_neg (by simpa using nonempty)]

theorem shows_leaf {fieldsOf : Addr -> Fields} (empty : forest.children top = []) :
    Shows fieldsOf forest top (leaf (fieldsOf top)) := by
  refine .node (fun impossible => absurd rfl impossible) ?_
  rw [empty]
  exact .nil

/-- The trees that are there already stay when another one is made. -/
theorem Shows.made {result : Pointer} (shows : Shows heap.fieldsOf forest top item) (isLive : top ∈ forest.live)
    (made : Made heap after forest larger result stage) : Shows after.fieldsOf larger top item := by
  apply shows.congr
  intro node below
  have nodeLive := below.live isLive
  exact ⟨made.grown.children node nodeLive, made.fields node nodeLive⟩

/-- What has been returned is a tree like this.  It stands beside the trees that were
there before, which have not changed. -/
def Grows (heap : Heap) (forest : OrderedForest Addr) (stage : Addr -> Stage) (built : Item -> Prop)
    (result : Pointer × Heap) : Prop :=
  ∃ larger, Made heap result.2 forest larger result.1 stage ∧
    ∀ top, result.1 = some top -> ∃ tree, built tree ∧ Shows result.2.fieldsOf larger top tree

/-- A function that makes such trees, wherever it runs.  This is `Constructs` together
with what the new node stands for. -/
def Raises (run : Nat -> Heap -> Except MemoryFault (Pointer × Heap)) (built : Item -> Prop) : Prop :=
  ∀ {heap : Heap} {forest : OrderedForest Addr} {stage : Addr -> Stage},
    heap.Represents forest stage -> Building forest stage ->
      Settles (fun fuel => run fuel heap) (Grows heap forest stage built)

theorem Grows.nothing {built : Item -> Prop} (made : Made heap after forest larger none stage) :
    Grows heap forest stage built (none, after) :=
  ⟨larger, made, fun _ impossible => nomatch impossible⟩

theorem createNode_raises (fields : Fields) :
    Raises (fun _ heap => heap.createNode fields) (fun tree => tree = leaf fields) := by
  intro heap forest stage represents _
  apply (Settles.of_returns (represents.createNode fields)).mono
  rintro result ⟨larger, made, leaf⟩
  refine ⟨larger, made, ?_⟩
  intro top same
  rcases leaf top same with ⟨empty, assigned⟩
  exact ⟨_, rfl, assigned ▸ shows_leaf empty⟩

/-- A copy of a string is its text with the terminator. -/
theorem strdup_copies (heap : Heap) (string : Bytes) : ∃ hooks,
    heap.strdup string = (none, { heap with hooks := hooks }) ∨
      heap.strdup string = (some (cjsonStrdup string), { heap with hooks := hooks }) := by
  refine ⟨(heap.request ((text string).length + 1)).2.hooks, ?_⟩
  rw [strdup]
  by_cases granted : (heap.request ((text string).length + 1)).1 = true
  · rw [if_pos granted]
    exact Or.inr rfl
  · rw [if_neg granted]
    exact Or.inl rfl

theorem createText_raises (base : BaseType) (string : Option Bytes) :
    Raises (fun fuel heap => Heap.createText fuel heap base string) (fun tree => ∃ text, string = some text ∧
      tree = leaf { type_ := { base := base }, valuestring := some (cjsonStrdup text) }) := by
  intro heap forest stage represents building
  unfold Heap.createText
  apply Settles.bind (Settles.of_returns (represents.createNode _))
  rintro ⟨item, created⟩ ⟨larger, made, bare⟩
  cases item with
  | none => exact Settles.ok (.nothing made)
  | some top =>
      have fails : ∀ (built : Item -> Prop) hooks, Settles (fun fuel => (do
          let final ← Heap.cjsonDelete fuel { created with hooks := hooks } (some top)
          .ok (none, final) : Except MemoryFault (Pointer × Heap))) (Grows heap forest stage built) := by
        intro built hooks
        apply Settles.bind ((made.withHooks hooks).cjsonDelete building.known)
        intro final unmade
        exact Settles.ok (.nothing unmade)
      cases string with
      | none => exact fails _ created.hooks
      | some string =>
          rcases strdup_copies created string with ⟨hooks, refused | copied⟩
          · simp only [Option.isNone_some, refused]
            exact fails _ hooks
          · have owned := made.withHooks hooks
            rcases bare top rfl with ⟨empty, assigned⟩
            simp only [Option.isNone_some, copied]
            apply Settles.bind (Settles.of_returns (owned.setFields _ (fun _ => empty)))
            rintro final ⟨made, filled⟩
            refine Settles.ok ⟨larger, made, ?_⟩
            rintro other ⟨⟩
            have fields : ({ created with hooks := hooks } : Heap).fieldsOf top = { type_ := { base := base } } :=
              assigned
            rw [fields] at filled
            exact ⟨_, ⟨string, rfl, rfl⟩, filled ▸ shows_leaf empty⟩

/-! ## Children one after the other -/

theorem closeChildren_relinked {base : Heap} (same : base.Relinked heap) (parent last : Pointer) :
    Ensures (heap.closeChildren parent last) fun after => base.Relinked after :=
  Ensures.step fun child => Ensures.ite (fun _ => setPrev_relinked same child last) fun _ => Ensures.ok same

/-- A loop that grows a tree has come so far: these trees are the children, in this
order, and the fields of the root are known. -/
structure Sprouts (heap after : Heap) (forest : OrderedForest Addr) (top : Addr) (last : Pointer)
    (stage : Addr -> Stage) (larger : OrderedForest Addr) (fields : Fields) (trees : List Item) : Prop
    extends Growing heap after forest top last stage larger where
  fields : after.fieldsOf top = fields
  row : List.Forall₂ (Shows after.fieldsOf larger) (larger.children top) trees

namespace Sprouts

variable {last : Pointer} {fields : Fields} {trees : List Item}

theorem start (building : Building forest stage) (made : Made heap after forest larger (some top) stage)
    (empty : larger.children top = []) (assigned : after.fieldsOf top = fields)
    (plain : fields.type_.isReference = false) : Sprouts heap after forest top none stage larger fields [] where
  toGrowing := Growing.start building made empty (by rw [assigned]; exact plain)
  fields := assigned
  row := by
    rw [empty]
    exact .nil

/-- One round: a new tree becomes the last child.  The trees that the loop has made so
far are the children, in the order in which they were made. -/
theorem attachChild {child : Addr} {later : Heap} {wider : OrderedForest Addr} {tree : Item}
    (sprouts : Sprouts heap after forest top last stage larger fields trees)
    (more : Made after later larger wider (some child) (Function.update stage top .chained))
    (shows : Shows later.fieldsOf wider child tree) :
    Returns (later.attachChild (some top) last (some child)) fun final =>
      ∃ largest, Sprouts heap final forest top (some child) stage largest fields (trees ++ [tree]) := by
  have topLive := (sprouts.made.grown.root top rfl).1
  have same := more.grown.children top topLive
  have holds := more.grown.canHold topLive
  have leaf : (later.fieldsOf top).type_.isReference = false := by
    rw [more.fields top topLive]
    exact sprouts.leaf
  rw [sprouts.last, ← same]
  apply (more.represents.attachChild holds (Function.update_self _ _ _) leaf).mono
  rintro final ⟨relinked, represents⟩
  have list : (holds.attach (wider.children top).length).children top = larger.children top ++ [child] := by
    rw [CanHold.attach, children_attach_self, List.insertIdx_length_self, same]
  refine ⟨_, ⟨⟨sprouts.made.attach .refl more relinked represents, ?_, ?_⟩, ?_, ?_⟩⟩
  · rw [CanHold.attach, children_attach_self, List.insertIdx_length_self, List.getLast?_concat]
  · rw [relinked.fieldsOf]
    exact leaf
  · rw [relinked.fieldsOf, more.fields top topLive]
    exact sprouts.fields
  · -- what is below the children does not lead back to their parent
    rw [list]
    refine List.rel_append (sprouts.row.imp_mem ?_) (.cons ?_ .nil)
    · intro other isOther tree shows
      apply shows.congr
      intro node below
      have nodeLive := below.live (larger.closed isOther).1
      have different : node ≠ top := by
        rintro rfl
        exact not_below_child isOther below
      rw [relinked.fieldsOf, more.fields node nodeLive, CanHold.attach, children_attach_of_ne different,
        more.grown.children node nodeLive]
      exact ⟨rfl, rfl⟩
    · apply shows.congr
      intro node below
      have different : node ≠ top := by
        rintro rfl
        exact more.grown.new child node rfl below topLive
      rw [relinked.fieldsOf, CanHold.attach, children_attach_of_ne different]
      exact ⟨rfl, rfl⟩

/-- The finished tree. -/
theorem close (building : Building forest stage)
    (sprouts : Sprouts heap after forest top last stage larger fields trees) :
    Returns (after.closeChildren (some top) last) fun final =>
      Made heap final forest larger (some top) stage ∧
        Shows final.fieldsOf larger top (branch fields trees) := by
  rcases sprouts.toGrowing.close building with ⟨final, runs, made⟩
  refine ⟨final, runs, made, ?_⟩
  rw [((closeChildren_relinked (.refl after) (some top) last).elim runs).fieldsOf, ← sprouts.fields]
  exact .node (ofList_linked trees) sprouts.row

end Sprouts

theorem createElements_sprouts {ι : Type} {create : ι -> Nat -> Heap -> Except MemoryFault (Pointer × Heap)}
    {built : ι -> Item -> Prop} (raises : ∀ element, Raises (create element) (built element))
    (building : Building forest stage) {fields : Fields} (elements : List ι) :
    ∀ after last larger trees, Sprouts heap after forest top last stage larger fields trees ->
      Settles (fun fuel => Heap.createElements fuel (some top)
        (elements.map (fun element => create element fuel)) after last) fun result =>
          match result.1 with
          | none => Made heap result.2 forest forest none stage
          | some last => ∃ largest more, List.Forall₂ built elements more ∧
              Sprouts heap result.2 forest top last stage largest fields (trees ++ more) := by
  induction elements with
  | nil =>
      intro after last larger trees sprouts
      refine Settles.ok ⟨larger, [], .nil, ?_⟩
      rw [List.append_nil]
      exact sprouts
  | cons element elements hypothesis =>
      intro after last larger trees sprouts
      have inner := building.grow sprouts.made.grown
      simp only [List.map_cons, Heap.createElements]
      apply Settles.bind (raises element sprouts.made.represents inner)
      rintro ⟨n, later⟩ ⟨wider, more, grows⟩
      cases n with
      | none =>
          apply Settles.bind ((sprouts.toGrowing.after_none more).delete building)
          intro final unmade
          exact Settles.ok unmade
      | some n =>
          rcases grows n rfl with ⟨tree, isBuilt, shows⟩
          simp only [Option.isNone_some]
          apply Settles.bind (Settles.of_returns (sprouts.attachChild more shows))
          rintro final ⟨largest, again⟩
          apply (hypothesis final (some n) largest _ again).mono
          rintro ⟨result, last⟩ done
          cases result with
          | none => exact done
          | some result =>
              rcases done with ⟨widest, others, areBuilt, all⟩
              refine ⟨widest, tree :: others, .cons isBuilt areBuilt, ?_⟩
              rw [List.append_assoc] at all
              exact all

theorem createNumberArray_raises {ι : Type} {create : ι -> Nat -> Heap -> Except MemoryFault (Pointer × Heap)}
    {built : ι -> Item -> Prop} (raises : ∀ element, Raises (create element) (built element)) (elements : List ι) :
    Raises (fun fuel heap => Heap.createNumberArray fuel heap (elements.map (fun element => create element fuel)))
      (fun tree => ∃ children, List.Forall₂ built elements children ∧
        tree = branch { type_ := { base := .array } } children) := by
  intro heap forest stage represents building
  unfold Heap.createNumberArray
  apply Settles.bind (Settles.of_returns (represents.createNode _))
  rintro ⟨a, created⟩ ⟨larger, made, leaf⟩
  cases a with
  | none => exact Settles.ok (.nothing made)
  | some top =>
      rcases leaf top rfl with ⟨empty, assigned⟩
      have sprouts := Sprouts.start building made empty assigned rfl
      simp only [Option.isNone_some]
      apply Settles.bind (createElements_sprouts raises building elements created none larger [] sprouts)
      rintro ⟨n, later⟩ outcome
      cases n with
      | none => exact Settles.ok (.nothing outcome)
      | some n =>
          rcases outcome with ⟨largest, children, areBuilt, grown⟩
          apply Settles.bind (Settles.of_returns (grown.close building))
          rintro final ⟨made, shows⟩
          refine Settles.ok ⟨largest, made, ?_⟩
          rintro other ⟨⟩
          exact ⟨_, ⟨children, areBuilt, rfl⟩, shows⟩

/-! ## Copies -/

theorem duplicateText_copies (heap : Heap) (string : Option Bytes) : ∃ hooks,
    heap.duplicateText string = (none, { heap with hooks := hooks }) ∨
      heap.duplicateText string = (some (string.map cjsonStrdup), { heap with hooks := hooks }) := by
  cases string with
  | none => exact ⟨heap.hooks, Or.inr rfl⟩
  | some string =>
      rcases strdup_copies heap string with ⟨hooks, refused | copied⟩
      · exact ⟨hooks, Or.inl (by rw [duplicateText, refused]; rfl)⟩
      · exact ⟨hooks, Or.inr (by rw [duplicateText, copied]; rfl)⟩

theorem duplicateName_copies (heap : Heap) (fields : Fields) : ∃ hooks,
    heap.duplicateName fields = (none, { heap with hooks := hooks }) ∨
      heap.duplicateName fields = (some fields.duplicate.string, { heap with hooks := hooks }) := by
  rw [duplicateName, Fields.duplicate]
  by_cases shared : (fields.string.isSome && fields.type_.stringIsConst) = true
  · rw [if_pos shared]
    rw [Bool.and_eq_true] at shared
    exact ⟨heap.hooks, Or.inr (by rw [if_pos shared.2])⟩
  · rw [if_neg shared]
    rcases duplicateText_copies heap fields.string with ⟨hooks, refused | copied⟩
    · exact ⟨hooks, Or.inl refused⟩
    · refine ⟨hooks, Or.inr (copied.trans ?_)⟩
      cases string : fields.string with
      | none => simp
      | some name => simp_all

/-- The node that `duplicate_rec` starts with has copies of the fields, and no flag
that says it borrows anything. -/
theorem duplicateNode_grows (represents : heap.Represents forest stage) (building : Building forest stage)
    {item : Addr} (isLive : item ∈ forest.live) :
    Settles (fun fuel => Heap.duplicateNode fuel heap (some item)) fun result =>
      ∃ larger, Made heap result.2 forest larger result.1 stage ∧ ∀ top, result.1 = some top ->
        larger.children top = [] ∧ result.2.fieldsOf top = (heap.fieldsOf item).duplicate := by
  rcases represents.newItem with ⟨larger, made, bare⟩
  unfold Heap.duplicateNode
  rcases created : heap.newItem with ⟨newitem, current⟩
  rw [created] at made bare
  cases newitem with
  | none => exact Settles.ok ⟨larger, made, fun _ impossible => nomatch impossible⟩
  | some top =>
      have node : Made heap current forest larger (some top) stage := made
      have itemLive := node.represents.allocated (node.grown.mono isLive)
      have empty := bare top rfl
      have fails : ∀ {current : Heap}, Made heap current forest larger (some top) stage ->
          Settles (fun fuel => (do
            let final ← Heap.cjsonDelete fuel current (some top)
            .ok (none, final) : Except MemoryFault (Pointer × Heap))) fun result =>
              ∃ larger, Made heap result.2 forest larger result.1 stage ∧ ∀ top, result.1 = some top ->
                larger.children top = [] ∧ result.2.fieldsOf top = (heap.fieldsOf item).duplicate := by
        intro current made
        apply Settles.bind (made.cjsonDelete building.known)
        intro final unmade
        exact Settles.ok ⟨forest, unmade, fun _ impossible => nomatch impossible⟩
      have source : current.fieldsOf item = heap.fieldsOf item := node.fields item isLive
      simp only [fields_eq itemLive, Except.ok_bind, source]
      apply Settles.bind (Settles.of_returns (node.setFields _ (fun _ => empty)))
      rintro typed ⟨typedMade, typedFields⟩
      rcases duplicateText_copies typed (heap.fieldsOf item).valuestring with ⟨hooks, refused | copied⟩
      · rw [refused]
        exact fails (typedMade.withHooks hooks)
      · rw [copied]
        apply Settles.bind (Settles.of_returns ((typedMade.withHooks hooks).setFields _ (fun _ => empty)))
        rintro valued ⟨valuedMade, valuedFields⟩
        rcases duplicateName_copies valued (heap.fieldsOf item) with ⟨later, refused | copied⟩
        · rw [refused]
          exact fails (valuedMade.withHooks later)
        · rw [copied]
          apply Settles.bind (Settles.of_returns ((valuedMade.withHooks later).setFields _ (fun _ => empty)))
          rintro final ⟨finalMade, finalFields⟩
          refine Settles.ok ⟨larger, finalMade, ?_⟩
          rintro other ⟨⟩
          refine ⟨empty, ?_⟩
          rw [finalFields]
          dsimp only
          rw [valuedFields]
          dsimp only
          rw [typedFields]
          rfl

/-- What `duplicate_rec` makes of a tree. -/
def copyOf (recurse : Bool) (own : Item) (depth : Nat) : Option Item :=
  if recurse then CJson.duplicateRec own depth else some (leaf own.fields.duplicate)

/-- What the recursion has to do with a node that has these fields and this tree.  The
fields are fixed beforehand, since the heap in which the recursion runs has grown by
the copies of earlier siblings. -/
def Copied (base : OrderedForest Addr) (fieldsOf : Addr -> Fields) (item : Addr) : Prop :=
  ∀ depth recurse own {heap : Heap} {forest : OrderedForest Addr} {stage : Addr -> Stage},
    heap.Represents forest stage -> Building forest stage -> Keeps base forest ->
      (∀ node ∈ base.live, heap.fieldsOf node = fieldsOf node) -> Shows fieldsOf base item own ->
        Settles (fun fuel => duplicateRec fuel heap (some item) depth recurse)
          (Grows heap forest stage fun tree => copyOf recurse own depth = some tree)

theorem duplicateChildren_sprouts {base : OrderedForest Addr} {fieldsOf : Addr -> Fields} {item : Addr} {depth : Nat}
    (children : ∀ child ∈ base.children item, Copied base fieldsOf child) (building : Building forest stage)
    (keeps : Keeps base forest) (same : ∀ node ∈ base.live, heap.fieldsOf node = fieldsOf node) {fields : Fields}
    (back : List Addr) :
    ∀ owns, List.Forall₂ (Shows fieldsOf base) back owns -> ∀ front after last larger trees,
      base.children item = front ++ back -> Sprouts heap after forest top last stage larger fields trees ->
      Settles (fun fuel => duplicateChildren fuel after (some top) back.head? last depth) fun result =>
        match result.1 with
        | none => Made heap result.2 forest forest none stage
        | some last => ∃ largest more, CJson.duplicateChildren owns depth = some more ∧
            Sprouts heap result.2 forest top last stage largest fields (trees ++ more) := by
  induction back with
  | nil =>
      rintro _ ⟨⟩ front after last larger trees _ sprouts
      apply Settles.succ
      refine Settles.ok ⟨larger, [], rfl, ?_⟩
      rw [List.append_nil]
      exact sprouts
  | cons child back hypothesis =>
      rintro _ (_ | ⟨shows, others⟩) front after last larger trees split sprouts
      rename_i own owns
      have isChild : child ∈ base.children item := by simp [split]
      have inner := building.grow sprouts.made.grown
      have kept := keeps.grow sprouts.made.grown
      have sameAfter : ∀ node ∈ base.live, after.fieldsOf node = fieldsOf node := by
        intro node isLive
        rw [sprouts.made.fields node (keeps node isLive).1, same node isLive]
      have fails : ∀ {current : Heap}, Growing heap current forest top last stage larger ->
          Settles (fun fuel => (do
            let final ← Heap.cjsonDelete (fuel + 1) current (some top)
            .ok (none, final) : Except MemoryFault (Option Pointer × Heap))) fun result =>
              match result.1 with
              | none => Made heap result.2 forest forest none stage
              | some last => ∃ largest more, CJson.duplicateChildren (own :: owns) depth = some more ∧
                  Sprouts heap result.2 forest top last stage largest fields (trees ++ more) := by
        intro current growing
        apply Settles.bind (growing.delete building).pred
        intro final unmade
        exact Settles.ok unmade
      apply Settles.succ
      simp only [List.head?_cons, duplicateChildren, Option.isNone_some]
      by_cases deep : circularLimit ≤ depth
      · simp only [deep, if_true]
        exact fails sprouts.toGrowing
      · simp only [deep, if_false]
        apply Settles.bind (children child isChild (depth + 1) true own sprouts.made.represents
          inner kept sameAfter shows)
        rintro ⟨newchild, later⟩ ⟨wider, more, grows⟩
        cases newchild with
        | none => exact fails (sprouts.toGrowing.after_none more)
        | some newchild =>
            rcases grows newchild rfl with ⟨tree, isCopy, showsCopy⟩
            simp only [Option.isNone_some]
            apply Settles.bind (Settles.of_returns (sprouts.attachChild more showsCopy))
            rintro final ⟨largest, again⟩
            have next : final.next (some child) = .ok back.head? := by
              apply @Represents.next_child final largest _ again.made.represents item child front back
              have itemLive := (base.closed isChild).2
              rw [((keeps.grow again.made.grown) item itemLive).2, split]
            simp only [next, Except.ok_bind]
            apply (hypothesis owns others (front ++ [child]) final (some newchild) largest _
              (by simp [split]) again).mono
            rintro ⟨result, last⟩ done
            cases result with
            | none => exact done
            | some result =>
                rcases done with ⟨widest, copies, areCopies, all⟩
                refine ⟨widest, tree :: copies, ?_, ?_⟩
                · have first : CJson.duplicateRec own (depth + 1) = some tree := isCopy
                  have within : ¬ cjsonCircularLimit ≤ depth := deep
                  rw [CJson.duplicateChildren, if_neg within, first, areCopies]
                  rfl
                · rw [List.append_assoc] at all
                  exact all

/-- `duplicate_rec` makes the copy of the tree under a node. -/
theorem copied (base : OrderedForest Addr) (fieldsOf : Addr -> Fields) (item : Addr) :
    item ∈ base.live -> Copied base fieldsOf item := by
  induction item using base.founded.induction with
  | _ item hypothesis =>
      intro isLive depth recurse own heap forest stage represents building keeps same shows
      have itemLive := (keeps item isLive).1
      rcases shows_iff.mp shows with ⟨fields, linked, each⟩
      have duplicated : (heap.fieldsOf item).duplicate = own.fields.duplicate := by
        rw [same item isLive, fields]
      apply Settles.succ
      simp only [duplicateRec, Option.isNone_some]
      apply Settles.bind (duplicateNode_grows represents building itemLive).pred
      rintro ⟨newitem, created⟩ ⟨larger, made, bare⟩
      cases newitem with
      | none => exact Settles.ok (.nothing made)
      | some top =>
          rcases bare top rfl with ⟨empty, assigned⟩
          rw [duplicated] at assigned
          cases recurse with
          | false =>
              refine Settles.ok ⟨larger, made, ?_⟩
              rintro other ⟨⟩
              exact ⟨_, rfl, assigned ▸ shows_leaf empty⟩
          | true =>
              have sprouts := Sprouts.start building made empty assigned rfl
              have kept := keeps.grow made.grown item isLive
              have child : created.child (some item) = .ok (base.children item).head? := by
                rw [child_eq (made.represents.allocated kept.1), ← kept.2]
                exact congrArg _ (made.represents.heads item kept.1 (building.known item))
              simp only [Option.isNone_some, child, Except.ok_bind]
              have children : ∀ child ∈ base.children item, Copied base fieldsOf child :=
                fun child isChild => hypothesis child isChild (base.closed isChild).1
              apply Settles.bind (duplicateChildren_sprouts children building keeps same
                (base.children item) _ each []
                created none larger [] rfl sprouts)
              rintro ⟨last, later⟩ outcome
              cases last with
              | none => exact Settles.ok (.nothing outcome)
              | some last =>
                  rcases outcome with ⟨largest, copies, areCopies, grown⟩
                  apply Settles.bind (Settles.of_returns (grown.close building))
                  rintro final ⟨made, shown⟩
                  refine Settles.ok ⟨largest, made, ?_⟩
                  rintro other ⟨⟩
                  refine ⟨_, ?_, shown⟩
                  rcases own with ⟨ownFields, ownChild, headPrev⟩
                  rw [copyOf, if_pos rfl, CJson.duplicateRec]
                  rw [Item.child_mk] at areCopies
                  rw [areCopies]
                  rfl

theorem Represents.duplicate_grows (represents : heap.Represents forest stage) (building : Building forest stage)
    {item : Addr} (isLive : item ∈ forest.live) {own : Item} (shows : Shows heap.fieldsOf forest item own)
    (recurse : Bool) :
    Settles (fun fuel => Heap.cjsonDuplicate fuel heap (some item) recurse)
      (Grows heap forest stage fun tree => copyOf recurse own 0 = some tree) :=
  copied forest heap.fieldsOf item isLive 0 recurse own represents building (fun _ stays => ⟨stays, rfl⟩)
    (fun _ _ => rfl) shows

/-! ## What the parser stores -/

theorem finishValue_fieldsOf (current : Heap) (node : Addr) (fields : Fields) (head last : Pointer) :
    Ensures (finishValue current node fields head last) fun after => after.fieldsOf node = fields := by
  have ends : ∀ current : Heap, Ensures (do
      let heap ← current.setFields (some node) (fun _ => fields)
      heap.setChild (some node) head) fun after => after.fieldsOf node = fields := by
    intro current
    refine (setFields_fieldsOf current node _).bind fun filled same => ?_
    exact (setChild_relinked (.refl filled) (some node) head).mono fun after relinked => by
      rw [relinked.fieldsOf, same, Function.update_self]
  exact Ensures.iteBind (fun _ => Ensures.any) (fun _ => Ensures.any) fun current _ => ends current

variable {current : Heap} {node : Addr}

/-- The children that have been stored already stay as they are. -/
theorem Fills.row {largest : OrderedForest Addr} {trees : List Item} (fills : Fills current after larger largest node)
    (row : List.Forall₂ (Shows current.fieldsOf larger) (larger.children node) trees) :
    List.Forall₂ (Shows after.fieldsOf largest) (larger.children node) trees := by
  apply row.imp_mem
  intro child isChild tree shows
  apply shows.congr
  intro lower below
  have different : lower ≠ node := by
    rintro rfl
    exact not_below_child isChild below
  exact fills.others lower (below.live (larger.closed isChild).1) different

/-- What storing a tree that the parser makes does.  It fills a node that is there
already, with an empty child list, and in the end that node stands for the tree. -/
def StoresTree (tree : Item) : Prop :=
  ∀ {heap current : Heap} {forest larger : OrderedForest Addr} {stage : Addr -> Stage} {top node : Addr},
    Storing heap current forest top stage larger node -> larger.children node = [] ->
      stage node = .closed ->
        Returns (storeValue current node tree) fun after => ∃ largest,
          Made heap after forest largest (some top) stage ∧ Fills current after larger largest node ∧
            Shows after.fieldsOf largest node tree

theorem storeChildren_row {elements : List Item} (stores : ∀ element ∈ elements, StoresTree element)
    (loose : stage node = .loose) :
    ∀ {current : Heap} {larger : OrderedForest Addr} {trees : List Item},
      Storing heap current forest top stage larger node ->
      List.Forall₂ (Shows current.fieldsOf larger) (larger.children node) trees ->
      Returns (storeChildren current (larger.children node).head? (larger.children node).getLast? elements)
        fun result => ∃ largest, Storing heap result.2.2 forest top stage largest node ∧
          Fills current result.2.2 larger largest node ∧
            result.1 = (largest.children node).head? ∧ result.2.1 = (largest.children node).getLast? ∧
              List.Forall₂ (Shows result.2.2.fieldsOf largest) (largest.children node) (trees ++ elements) := by
  induction elements with
  | nil =>
      intro current larger trees storing row
      refine Returns.ok ⟨larger, storing, Fills.refl current larger node, rfl, rfl, ?_⟩
      rw [List.append_nil]
      exact row
  | cons element rest hypothesis =>
      intro current larger trees storing row
      have nodeLive := storing.made.grown.below_live storing.inside
      have fresh := storing.made.represents.unused_not_live
      have different : node ≠ current.unused := fun same => fresh (same ▸ nodeLive)
      unfold storeChildren
      apply (storing.link loose).bind
      rintro linked _ ⟨wider, child, fills, below, fields, appended, empty⟩
      have closed : stage current.unused = .closed := storing.new _ fresh
      apply (stores element List.mem_cons_self child empty closed).bind
      rintro stored _ ⟨widest, made, filled, shows⟩
      have kept := filled.others node (fills.live node nodeLive) different
      have list : widest.children node = larger.children node ++ [current.unused] := kept.1.trans appended
      have both := fills.trans filled (Or.inr fresh)
      have again : Storing heap stored forest top stage widest node := by
        refine ⟨made, ?_, filled.below below, ?_⟩
        · intro other dead
          exact storing.new other (fun isLive => dead (both.live other isLive))
        · rw [kept.2, fields]
          exact storing.leaf
      have longer : List.Forall₂ (Shows stored.fieldsOf widest) (widest.children node) (trees ++ [element]) := by
        rw [list]
        exact List.rel_append (both.row row) (.cons shows .nil)
      have rest := hypothesis (fun other inside => stores other (List.mem_cons_of_mem _ inside)) again longer
      rw [list, List.head?_append, List.getLast?_concat] at rest
      apply rest.mono
      rintro result ⟨largest, storing, fillsRest, head, last, all⟩
      rw [List.append_assoc] at all
      exact ⟨largest, storing, both.trans fillsRest (Or.inl rfl), head, last, all⟩

theorem storesTree (tree : Item) (parsed : ∃ limit name, ParsedTree limit name tree) : StoresTree tree := by
  induction tree using Item.induct with
  | node fields child headPrev hypothesis =>
      rcases parsed with ⟨limit, name, parsed⟩
      rcases parsed.plain with ⟨plain, linked, below⟩
      intro heap current forest larger stage top node storing empty closed
      have nodeLive := storing.made.grown.below_live storing.inside
      have loose : Storing heap current forest top (Function.update stage node .loose) larger node := by
        refine ⟨storing.made.restage (storing.made.represents.loosen empty), ?_, storing.inside, storing.leaf⟩
        intro other dead
        rw [Function.update_of_ne (fun same : other = node => dead (same ▸ nodeLive))]
        exact storing.new other dead
      have nothing : List.Forall₂ (Shows current.fieldsOf larger) (larger.children node) [] := by
        rw [empty]
        exact .nil
      have children := storeChildren_row (fun item inside => hypothesis item inside (below item inside))
        (Function.update_self _ _ _) loose nothing
      rw [empty] at children
      rw [storeValue]
      apply children.bind
      rintro ⟨head, last, stored⟩ _ ⟨largest, storing, fills, isHead, isLast, row⟩
      dsimp only at isHead isLast storing fills row ⊢
      rw [isHead, isLast]
      have closes : Function.update (Function.update stage node .loose) node .closed = stage := by
        rw [Function.update_idem, Function.update_eq_self_iff, closed]
      have owned : ({ fields with type_ := { base := fields.type_.base } } : Fields).type_.isReference = false := rfl
      rcases storing.finish owned (Function.update_self _ _ _) closes with ⟨after, runs, made, others⟩
      refine ⟨after, runs, largest, made, ⟨fills.live, fills.grows, ?_⟩, ?_⟩
      · intro other isLive different
        rw [others other different]
        exact fills.others other isLive different
      · have assigned : after.fieldsOf node = fields := by
          rw [(finishValue_fieldsOf _ _ _ _ _).elim runs, ← plain]
        refine shows_iff.mpr ⟨assigned.symm, linked, row.imp_mem ?_⟩
        intro lower isChild tree shows
        apply shows.congr
        intro deeper under
        have different : deeper ≠ node := by
          rintro rfl
          exact not_below_child isChild under
        exact ⟨rfl, others deeper different⟩

/-- `cjson_parse` adds the tree that it has read, or nothing; the other trees are as
they were. -/
theorem Represents.parse_grows {library : CLibrary} (consumes : library.ConsumesAtMost)
    (represents : heap.Represents forest stage) (new : ∀ node, node ∉ forest.live -> stage node = .closed)
    (value : Bytes) (later : Hooks) :
    Returns (Heap.cjsonParse library heap value later)
      (Grows heap forest stage fun tree => CJson.cjsonParse library heap.hooks value = .ok (some tree)) := by
  have text : CString.text value ++ [0] ≠ [] := by simp
  have length : (CString.text value).length + 1 = (CString.text value ++ [0]).length := by simp
  rcases cjsonParseWithLengthOpts_returns consumes heap.hooks text false with ⟨outcome, parsed, _⟩
  have parse : CJson.cjsonParse library heap.hooks value = .ok outcome.item := by
    rw [CJson.cjsonParse, cjsonParseWithOpts, length, parsed, Except.ok_bind]
  rw [Heap.cjsonParse, parse]
  cases accepts : outcome.item with
  | none => exact Returns.ok (.nothing ⟨Grown.refl forest, represents.withHooks later, fun _ _ => rfl⟩)
  | some tree =>
      have made := represents.allocate.withHooks later
      have fresh := represents.unused_not_live
      have storing : Storing heap { heap.allocate with hooks := later } forest heap.unused stage
          (forest.create heap.unused) heap.unused :=
        ⟨made, fun node dead => new node (fun isLive => dead (Or.inr isLive)), .refl,
          by simp [Heap.allocate]⟩
      have empty : (forest.create heap.unused).children heap.unused = [] := by
        rw [children_create, children_of_not_live fresh]
      have shape := ParsedTree.of_parse consumes parsed accepts
      apply (storesTree tree ⟨_, _, shape⟩ storing empty (new _ fresh)).bind
      rintro after _ ⟨largest, made, _, shows⟩
      refine Returns.ok ⟨largest, made, ?_⟩
      rintro other ⟨⟩
      exact ⟨tree, rfl, shows⟩

end Heap
end CJson
