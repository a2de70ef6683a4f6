import Mathlib.Data.List.Nodup
import Mathlib.Logic.Function.Basic

/-!
# Doubly linked lists

The memory is two pointer fields, `next` and `prev`, for every node.  A list is
a sequence of nodes that `next` visits from a head, with `prev` going back; it
is well linked if moreover the head's `prev` holds the last node, so that a list
can grow in constant time.  Lists on disjoint nodes do not see each other's
updates.  The four ways of changing a list (append, insert, remove, replace) are
a few pointer writes each, and every one of them keeps lists well linked.
-/

universe u

/-- The two link fields of every node. -/
structure Links (α : Type u) where
  next : α -> Option α
  prev : α -> Option α

namespace Links

variable {α : Type u}

/-- Neighbours point at each other; the first node's `prev` holds `before` and the
last one's `next` holds `behind`.  Runs can be cut and joined: `behind` of the one is
then the head of the other. -/
def Run (links : Links α) : Option α -> List α -> Option α -> Prop
  | _, [], _ => True
  | before, node :: rest, behind =>
      links.prev node = before ∧ links.next node = rest.head?.or behind ∧
        links.Run (some node) rest behind

/-- From `head`, these nodes are visited, and the head knows the last one. -/
def WellLinked (links : Links α) (head : Option α) (nodes : List α) : Prop :=
  head = nodes.head? ∧ links.Run nodes.getLast? nodes none

variable {links other : Links α} {head before behind : Option α} {nodes front back : List α}

@[simp] theorem run_nil : links.Run before [] behind := trivial

@[simp] theorem run_cons {node : α} : links.Run before (node :: back) behind ↔
    links.prev node = before ∧ links.next node = back.head?.or behind ∧
      links.Run (some node) back behind := Iff.rfl

theorem run_append : links.Run before (front ++ back) behind ↔
    links.Run before front (back.head?.or behind) ∧
      links.Run (front.getLast?.or before) back behind := by
  induction front generalizing before with
  | nil => simp
  | cons node front hypothesis =>
      have heads : (front ++ back).head?.or behind = front.head?.or (back.head?.or behind) := by
        rw [List.head?_append, Option.or_assoc]
      have lasts : front.getLast?.or (some node) = (node :: front).getLast? := by
        rw [List.getLast?_cons]
        cases front.getLast? <;> rfl
      rw [List.cons_append, run_cons, run_cons, hypothesis, heads, lasts]
      have filled : (node :: front).getLast?.or before = (node :: front).getLast? := by
        rw [List.getLast?_cons]
        rfl
      rw [filled, and_assoc, and_assoc]

/-- A run reads its own nodes only. -/
theorem Run.congr (run : links.Run before nodes behind)
    (same : ∀ node ∈ nodes, other.next node = links.next node ∧ other.prev node = links.prev node) :
    other.Run before nodes behind := by
  induction nodes generalizing before with
  | nil => trivial
  | cons node nodes hypothesis =>
      rcases run with ⟨prev, next, rest⟩
      have here := same node List.mem_cons_self
      refine ⟨here.2.trans prev, here.1.trans next, ?_⟩
      exact hypothesis rest (fun later inside => same later (List.mem_cons_of_mem _ inside))

theorem WellLinked.congr (linked : links.WellLinked head nodes)
    (same : ∀ node ∈ nodes, other.next node = links.next node ∧ other.prev node = links.prev node) :
    other.WellLinked head nodes :=
  ⟨linked.1, linked.2.congr same⟩

theorem wellLinked_nil : links.WellLinked none [] := ⟨rfl, trivial⟩

/-- What the fields of one node hold. -/
theorem Run.at {node : α} (run : links.Run before (front ++ node :: back) behind) :
    links.prev node = front.getLast?.or before ∧ links.next node = back.head?.or behind := by
  rcases run_append.mp run with ⟨_, here⟩
  exact ⟨here.1, here.2.1⟩

/-- The head knows the last node. -/
theorem WellLinked.prev_first {first : α} (linked : links.WellLinked head nodes)
    (isFirst : nodes.head? = some first) : links.prev first = nodes.getLast? := by
  rcases List.head?_eq_some_iff.mp isFirst with ⟨rest, rfl⟩
  exact linked.2.1

/-- Neighbours point at each other, whatever the first node's `prev` holds.  It is
what is left of a list when its head is no longer of interest. -/
def Chain (links : Links α) (nodes : List α) (behind : Option α) : Prop :=
  links.Run (nodes.head?.bind links.prev) nodes behind

theorem Run.chain (run : links.Run before nodes behind) : links.Chain nodes behind := by
  cases nodes with
  | nil => trivial
  | cons first rest =>
      rw [Chain, List.head?_cons, Option.bind_some, run.1]
      exact run

theorem chain_nil : links.Chain [] behind := trivial

/-- The nodes behind the first one. -/
theorem Chain.tail {first : α} (chain : links.Chain (first :: back) behind) : links.Chain back behind :=
  chain.2.2.chain

theorem Chain.next_first {first : α} (chain : links.Chain (first :: back) none) :
    links.next first = back.head? := by
  rw [chain.2.1, Option.or_none]

theorem Chain.next_last {last : α} (chain : links.Chain (front ++ [last]) behind) : links.next last = behind :=
  (Run.at chain).2

/-- A chain reads its own nodes only. -/
theorem Chain.congr (chain : links.Chain nodes behind)
    (same : ∀ node ∈ nodes, other.next node = links.next node ∧ other.prev node = links.prev node) :
    other.Chain nodes behind :=
  (Run.congr chain same).chain

/-- The nodes from one of them on are determined by it. -/
theorem Chain.unique {first second : List α} (chain : links.Chain first none) (also : links.Chain second none)
    (heads : first.head? = second.head?) : first = second := by
  induction first generalizing second with
  | nil => exact (List.head?_eq_none_iff.mp heads.symm).symm
  | cons node first ih =>
      rcases List.head?_eq_some_iff.mp heads.symm with ⟨rest, rfl⟩
      rw [ih chain.tail also.tail (chain.next_first.symm.trans also.next_first)]

/-- A chain that ends visits no node twice. -/
theorem Chain.nodup (chain : links.Chain nodes none) : nodes.Nodup := by
  induction nodes with
  | nil => exact List.nodup_nil
  | cons first rest ih =>
      refine List.nodup_cons.mpr ⟨?_, ih chain.tail⟩
      intro again
      rcases List.append_of_mem again with ⟨front, back, rfl⟩
      have later : links.Chain (first :: back) none :=
        (run_append.mp (show links.Run _ ((first :: front) ++ first :: back) none from chain)).2.chain
      have lengths := congrArg List.length (chain.unique later rfl)
      rw [List.length_cons, List.length_cons, List.length_append, List.length_cons] at lengths
      omega

section Writes

variable [DecidableEq α]

/-- `node.next = target`. -/
def setNext (links : Links α) (node : α) (target : Option α) : Links α :=
  { links with next := Function.update links.next node target }

/-- `node.prev = target`. -/
def setPrev (links : Links α) (node : α) (target : Option α) : Links α :=
  { links with prev := Function.update links.prev node target }

@[simp] theorem setNext_next (links : Links α) (node other : α) (target : Option α) :
    (links.setNext node target).next other = if other = node then target else links.next other :=
  Function.update_apply _ _ _ _

@[simp] theorem setNext_prev (links : Links α) (node : α) (target : Option α) :
    (links.setNext node target).prev = links.prev := rfl

@[simp] theorem setPrev_prev (links : Links α) (node other : α) (target : Option α) :
    (links.setPrev node target).prev other = if other = node then target else links.prev other :=
  Function.update_apply _ _ _ _

@[simp] theorem setPrev_next (links : Links α) (node : α) (target : Option α) :
    (links.setPrev node target).next = links.next := rfl

/-- A write to a node that is not in the run. -/
theorem Run.setNext {node : α} {target : Option α} (run : links.Run before nodes behind)
    (outside : node ∉ nodes) : (links.setNext node target).Run before nodes behind := by
  apply run.congr
  intro later inside
  simp [ne_of_mem_of_not_mem inside outside]

theorem Run.setPrev {node : α} {target : Option α} (run : links.Run before nodes behind)
    (outside : node ∉ nodes) : (links.setPrev node target).Run before nodes behind := by
  apply run.congr
  intro later inside
  simp [ne_of_mem_of_not_mem inside outside]

/-- The fields of a node that is not in the list are cleared. -/
theorem WellLinked.clear {node : α} (linked : links.WellLinked head nodes) (outside : node ∉ nodes) :
    ((links.setPrev node none).setNext node none).WellLinked head nodes :=
  ⟨linked.1, (linked.2.setPrev outside).setNext outside⟩

/-- The order of the two writes does not matter. -/
theorem setNext_setPrev (links : Links α) (node other : α) (target value : Option α) :
    (links.setNext node target).setPrev other value = (links.setPrev other value).setNext node target :=
  rfl

/-- The run gets another end. -/
theorem Run.setLast {last : α} (run : links.Run before (front ++ [last]) behind)
    (distinct : (front ++ [last]).Nodup) (target : Option α) :
    (links.setNext last target).Run before (front ++ [last]) target := by
  rcases run_append.mp run with ⟨start, ended⟩
  have outside : last ∉ front := fun inside =>
    (List.nodup_append.mp distinct).2.2 last inside last List.mem_cons_self rfl
  apply run_append.mpr
  exact ⟨start.setNext outside, ended.1, by simp, trivial⟩

/-- The run gets another start. -/
theorem Run.setFirst {first : α} (run : links.Run before (first :: back) behind)
    (distinct : (first :: back).Nodup) (target : Option α) :
    (links.setPrev first target).Run target (first :: back) behind := by
  rcases run with ⟨_, next, rest⟩
  exact ⟨by simp, next, rest.setPrev (List.nodup_cons.mp distinct).1⟩

/-- A node behind a run: the last node and the new one are linked to each other. -/
theorem Run.append {last node : α} (run : links.Run before nodes none)
    (isLast : nodes.getLast? = some last) (distinct : nodes.Nodup) (fresh : node ∉ nodes)
    (ends : links.next node = none) :
    ((links.setNext last (some node)).setPrev node (some last)).Run before (nodes ++ [node]) none := by
  rcases List.getLast?_eq_some_iff.mp isLast with ⟨front, rfl⟩
  have different : node ≠ last := fun same => fresh (same ▸ by simp)
  apply run_append.mpr
  constructor
  · exact (run.setLast distinct _).setPrev fresh
  · rw [List.getLast?_concat]
    exact ⟨by simp, by simp [different, ends], trivial⟩

/-- A chain is cut in front of a node, which leaves two chains. -/
theorem Chain.cut {prior second : α} (chain : links.Chain (front ++ prior :: second :: back) none)
    (distinct : (front ++ prior :: second :: back).Nodup) :
    ((links.setNext prior none).setPrev second none).Chain (front ++ [prior]) none ∧
      ((links.setNext prior none).setPrev second none).Chain (second :: back) none := by
  have split : front ++ prior :: second :: back = (front ++ [prior]) ++ second :: back := by
    rw [List.append_assoc]
    rfl
  rw [split] at chain distinct
  rcases List.nodup_append.mp distinct with ⟨shorter, later, apart⟩
  rcases run_append.mp chain with ⟨run, rest⟩
  have priorOut : prior ∉ second :: back := fun inside =>
    apart prior (List.mem_append_right _ List.mem_cons_self) prior inside rfl
  have secondOut : second ∉ front ++ [prior] := fun inside =>
    apart second inside second List.mem_cons_self rfl
  exact ⟨((run.setLast shorter none).setPrev secondOut).chain, ((rest.setNext priorOut).setFirst later none).chain⟩

/-- Two chains become one when the end of the one and the start of the other are
linked to each other. -/
theorem Chain.join {last second : α} {beyond : Option α} (chain : links.Chain (front ++ [last]) beyond)
    (rest : links.Chain (second :: back) behind) (distinct : ((front ++ [last]) ++ second :: back).Nodup) :
    ((links.setNext last (some second)).setPrev second (some last)).Chain ((front ++ [last]) ++ second :: back)
      behind := by
  rcases List.nodup_append.mp distinct with ⟨shorter, later, apart⟩
  have lastOut : last ∉ second :: back := fun inside =>
    apart last (List.mem_append_right _ List.mem_cons_self) last inside rfl
  have secondOut : second ∉ front ++ [last] := fun inside =>
    apart second inside second List.mem_cons_self rfl
  apply Run.chain
  apply run_append.mpr
  constructor
  · exact (Run.setLast chain shorter (some second)).setPrev secondOut
  · rw [List.getLast?_concat]
    exact (Run.setNext rest lastOut).setFirst later _

/-- A node behind the last one, if there is one. -/
def extend (links : Links α) (last : Option α) (node : α) : Links α :=
  match last with
  | none => links
  | some last => (links.setNext last (some node)).setPrev node (some last)

/-- The first node of a chain is put behind another chain, and the rest of its chain
is a chain still. -/
theorem Chain.extend {node : α} {beyond : Option α} (chain : links.Chain front beyond)
    (rest : links.Chain (node :: back) behind) (distinct : (front ++ node :: back).Nodup) :
    (links.extend front.getLast? node).Chain (front ++ [node]) (back.head?.or behind) ∧
      (links.extend front.getLast? node).Chain back behind := by
  have whole : (links.extend front.getLast? node).Chain (front ++ node :: back) behind := by
    rcases List.eq_nil_or_concat front with rfl | ⟨before, last, rfl⟩
    · exact rest
    · rw [List.concat_eq_append, List.getLast?_concat]
      rw [List.concat_eq_append] at chain distinct
      exact chain.join rest distinct
  have split : front ++ node :: back = (front ++ [node]) ++ back := by
    rw [List.append_assoc]
    rfl
  rw [split] at whole
  rcases run_append.mp whole with ⟨longer, shorter⟩
  exact ⟨longer.chain, shorter.chain⟩

@[simp] theorem extend_prev {node other : α} (last : Option α) (different : other ≠ node) :
    (links.extend last node).prev other = links.prev other := by
  cases last with
  | none => rfl
  | some last => simp [extend, different]

@[simp] theorem extend_next {other : α} {last : Option α} (node : α) (notLast : last ≠ some other) :
    (links.extend last node).next other = links.next other := by
  cases last with
  | none => rfl
  | some last =>
      have apart : other ≠ last := fun same => notLast (congrArg some same.symm)
      simp [extend, apart]

/-- The first node keeps its `prev`. -/
theorem extend_prev_first {node first : α} (fresh : node ∉ front)
    (isFirst : (front ++ [node]).head? = some first) :
    (links.extend front.getLast? node).prev first = links.prev first := by
  cases front with
  | nil => rfl
  | cons head rest =>
      cases isFirst
      exact extend_prev _ fun same => fresh (same ▸ List.mem_cons_self)

/-! ## The four changes -/

/-- A node behind the last one.  The head is told, whose `prev` is the last node. -/
theorem WellLinked.append {first last node : α} (linked : links.WellLinked head nodes)
    (isFirst : nodes.head? = some first) (isLast : nodes.getLast? = some last)
    (distinct : nodes.Nodup) (fresh : node ∉ nodes) (ends : links.next node = none) :
    (((links.setNext last (some node)).setPrev node (some last)).setPrev first (some node)).WellLinked
      head (nodes ++ [node]) := by
  rcases List.head?_eq_some_iff.mp isFirst with ⟨rest, rfl⟩
  have nodeNeFirst : node ≠ first := fun same => fresh (same ▸ List.mem_cons_self)
  have nodeNeLast : node ≠ last := fun same => fresh (same ▸ List.mem_of_getLast? isLast)
  constructor
  · exact linked.1
  · have run := linked.2.append isLast distinct fresh ends
    have longer : (first :: (rest ++ [node])).Nodup := by
      rw [← List.cons_append]
      exact (List.perm_append_singleton node _).nodup_iff.mpr (List.nodup_cons.mpr ⟨fresh, distinct⟩)
    rw [List.getLast?_concat]
    exact run.setFirst longer (some node)

/-- Without its first node: the second one takes over its `prev`, which is the last
node. -/
theorem WellLinked.removeFirst {node second : α}
    (linked : links.WellLinked head (node :: second :: back))
    (distinct : (node :: second :: back).Nodup) :
    (links.setPrev second (links.prev node)).WellLinked (some second) (second :: back) := by
  rcases linked.2 with ⟨prev, _, rest⟩
  refine ⟨rfl, ?_⟩
  have changed := rest.setFirst (List.nodup_cons.mp distinct).2 (links.prev node)
  rw [prev] at changed ⊢
  rw [List.getLast?_cons_cons] at changed ⊢
  exact changed

/-- Without its last node: the head is told who the last one is now. -/
theorem WellLinked.removeLast {first prior node : α}
    (linked : links.WellLinked head (front ++ [prior, node]))
    (isFirst : (front ++ [prior]).head? = some first) (distinct : (front ++ [prior, node]).Nodup) :
    ((links.setNext prior none).setPrev first (some prior)).WellLinked head (front ++ [prior]) := by
  have split : front ++ [prior, node] = (front ++ [prior]) ++ [node] := by simp
  rw [split] at linked distinct
  have shorter := (List.nodup_append.mp distinct).1
  rcases run_append.mp linked.2 with ⟨run, _⟩
  have changed := run.setLast shorter none
  rcases List.head?_eq_some_iff.mp isFirst with ⟨rest, same⟩
  constructor
  · rw [linked.1, List.head?_append, isFirst]
    rfl
  · have lasts : (front ++ [prior]).getLast? = some prior := by simp
    rw [lasts]
    rw [same] at changed shorter ⊢
    exact changed.setFirst shorter _

/-- Without a node between two others, which are linked to each other. -/
theorem WellLinked.removeInner {prior node second : α}
    (linked : links.WellLinked head (front ++ prior :: node :: second :: back))
    (distinct : (front ++ prior :: node :: second :: back).Nodup) :
    ((links.setNext prior (some second)).setPrev second (some prior)).WellLinked head
      (front ++ prior :: second :: back) := by
  have split : front ++ prior :: node :: second :: back =
      (front ++ [prior]) ++ node :: second :: back := by simp
  have joined : front ++ prior :: second :: back = (front ++ [prior]) ++ second :: back := by simp
  rw [split] at linked distinct
  rw [joined]
  rcases List.nodup_append.mp distinct with ⟨shorter, later, apart⟩
  rcases run_append.mp linked.2 with ⟨run, rest⟩
  have priorIn : prior ∈ front ++ [prior] := by simp
  have secondOut : second ∉ front ++ [prior] := fun inside => apart second inside second (by simp) rfl
  have priorOut : prior ∉ second :: back := fun inside =>
    apart prior priorIn prior (List.mem_cons_of_mem _ inside) rfl
  have lasts : ((front ++ [prior]) ++ node :: second :: back).getLast? =
      ((front ++ [prior]) ++ second :: back).getLast? := by
    simp [List.getLast?_append, List.getLast?_cons_cons]
  constructor
  · rw [linked.1]
    simp [List.head?_append]
  · apply run_append.mpr
    constructor
    · rw [← lasts]
      exact (run.setLast shorter _).setPrev secondOut
    · have start : (front ++ [prior]).getLast?.or ((front ++ [prior]) ++ second :: back).getLast? =
          some prior := by simp
      rw [start]
      exact (rest.2.2.setNext priorOut).setFirst (List.nodup_cons.mp later).2 _

/-- A node in front of the first one, whose `prev` it takes over. -/
theorem WellLinked.insertFirst {node second : α} (linked : links.WellLinked head (second :: back))
    (distinct : (second :: back).Nodup) (fresh : node ∉ second :: back) :
    (((links.setNext node (some second)).setPrev node (links.prev second)).setPrev second
      (some node)).WellLinked (some node) (node :: second :: back) := by
  have nodeNe : node ≠ second := fun same => fresh (same ▸ List.mem_cons_self)
  refine ⟨rfl, ?_, ?_, ?_⟩
  · rw [List.getLast?_cons_cons, ← linked.2.1]
    simp [nodeNe]
  · simp
  · exact ((linked.2.setNext fresh).setPrev fresh).setFirst distinct _

/-- A node between two others.  Its own two links and the two that meet at it are set;
those of the ends stay. -/
theorem WellLinked.insertInner {prior node second : α}
    (linked : links.WellLinked head (front ++ prior :: second :: back))
    (distinct : (front ++ prior :: second :: back).Nodup)
    (fresh : node ∉ front ++ prior :: second :: back) :
    ((((links.setNext node (some second)).setPrev node (some prior)).setPrev second
      (some node)).setNext prior (some node)).WellLinked head
        (front ++ prior :: node :: second :: back) := by
  have split : front ++ prior :: second :: back = (front ++ [prior]) ++ second :: back := by simp
  have joined : front ++ prior :: node :: second :: back =
      (front ++ [prior]) ++ node :: second :: back := by simp
  rw [split] at linked distinct fresh
  rw [joined]
  rcases List.nodup_append.mp distinct with ⟨shorter, later, apart⟩
  rcases run_append.mp linked.2 with ⟨run, rest⟩
  have priorIn : prior ∈ front ++ [prior] := by simp
  have secondOut : second ∉ front ++ [prior] := fun inside => apart second inside second (by simp) rfl
  have priorOut : prior ∉ second :: back := fun inside => apart prior priorIn prior inside rfl
  have freshFront : node ∉ front ++ [prior] := fun inside => fresh (List.mem_append_left _ inside)
  have freshBack : node ∉ second :: back := fun inside => fresh (List.mem_append_right _ inside)
  have nodeNePrior : node ≠ prior := fun same => freshFront (same ▸ priorIn)
  have nodeNeSecond : node ≠ second := fun same => freshBack (same ▸ List.mem_cons_self)
  have lasts : ((front ++ [prior]) ++ second :: back).getLast? =
      ((front ++ [prior]) ++ node :: second :: back).getLast? := by
    simp [List.getLast?_append, List.getLast?_cons_cons]
  have start : (front ++ [prior]).getLast?.or ((front ++ [prior]) ++ second :: back).getLast? =
      some prior := by simp
  rw [start] at rest
  constructor
  · rw [linked.1]
    simp [List.head?_append]
  · apply run_append.mpr
    constructor
    · rw [← lasts]
      exact ((((run.setNext freshFront).setPrev freshFront).setPrev secondOut).setLast shorter _)
    · refine ⟨?_, ?_, ?_⟩
      · rw [← lasts, start]
        simp [nodeNeSecond]
      · simp [nodeNePrior]
      · exact (((rest.setNext freshBack).setPrev freshBack).setFirst later _).setNext priorOut

/-- Another node in place of the first one; it takes over the `prev` that the head
has. -/
theorem WellLinked.replaceFirst {node second replacement : α}
    (linked : links.WellLinked head (node :: second :: back))
    (distinct : (node :: second :: back).Nodup) (fresh : replacement ∉ second :: back) :
    (((links.setNext replacement (some second)).setPrev replacement (links.prev node)).setPrev second
      (some replacement)).WellLinked (some replacement) (replacement :: second :: back) := by
  have nodeNe : replacement ≠ second := fun same => fresh (same ▸ List.mem_cons_self)
  rcases linked.2 with ⟨prev, _, rest⟩
  refine ⟨rfl, ?_, ?_, ?_⟩
  · rw [prev, List.getLast?_cons_cons, List.getLast?_cons_cons]
    simp [nodeNe]
  · simp
  · exact ((rest.setNext fresh).setPrev fresh).setFirst (List.nodup_cons.mp distinct).2 _

/-- Another node in place of the last one.  Besides its neighbour the head is told,
which points back at the last node. -/
theorem WellLinked.replaceLast {first prior node replacement : α}
    (linked : links.WellLinked head (front ++ [prior, node]))
    (isFirst : (front ++ [prior]).head? = some first) (distinct : (front ++ [prior, node]).Nodup)
    (fresh : replacement ∉ front ++ [prior]) :
    ((((links.setNext replacement none).setPrev replacement (some prior)).setNext prior
      (some replacement)).setPrev first (some replacement)).WellLinked head
        (front ++ [prior, replacement]) := by
  have split : front ++ [prior, node] = (front ++ [prior]) ++ [node] := by simp
  have joined : front ++ [prior, replacement] = (front ++ [prior]) ++ [replacement] := by simp
  rw [split] at linked distinct
  rw [joined]
  have shorter := (List.nodup_append.mp distinct).1
  rcases run_append.mp linked.2 with ⟨run, _⟩
  rcases List.head?_eq_some_iff.mp isFirst with ⟨rest, same⟩
  have nodeNePrior : replacement ≠ prior := fun same => fresh (same ▸ by simp)
  have nodeNeFirst : replacement ≠ first := fun same =>
    fresh (same ▸ List.mem_of_mem_head? isFirst)
  constructor
  · rw [linked.1, same]
    rfl
  · apply run_append.mpr
    constructor
    · have changed : (((links.setNext replacement none).setPrev replacement (some prior)).setNext
          prior (some replacement)).Run ((front ++ [prior]) ++ [node]).getLast? (front ++ [prior])
            (some replacement) :=
        ((run.setNext fresh).setPrev fresh).setLast shorter _
      rw [List.getLast?_concat]
      rw [same] at changed shorter ⊢
      exact changed.setFirst shorter _
    · have start : (front ++ [prior]).getLast?.or ((front ++ [prior]) ++ [replacement]).getLast? =
          some prior := by simp
      rw [start]
      refine ⟨?_, ?_, trivial⟩
      · simp [nodeNeFirst]
      · simp [nodeNePrior]

/-- Another node in place of one between two others.  The node that has been replaced
keeps its links, and nobody points at it. -/
theorem WellLinked.replaceInner {prior node second replacement : α}
    (linked : links.WellLinked head (front ++ prior :: node :: second :: back))
    (distinct : (front ++ prior :: node :: second :: back).Nodup)
    (freshFront : replacement ∉ front ++ [prior]) (freshBack : replacement ∉ second :: back) :
    ((((links.setNext replacement (some second)).setPrev replacement (some prior)).setPrev second
      (some replacement)).setNext prior (some replacement)).WellLinked head
        (front ++ prior :: replacement :: second :: back) := by
  have split : front ++ prior :: node :: second :: back =
      (front ++ [prior]) ++ node :: second :: back := by simp
  have joined : front ++ prior :: replacement :: second :: back =
      (front ++ [prior]) ++ replacement :: second :: back := by simp
  rw [split] at linked distinct
  rw [joined]
  rcases List.nodup_append.mp distinct with ⟨shorter, later, apart⟩
  rcases run_append.mp linked.2 with ⟨run, rest⟩
  have priorIn : prior ∈ front ++ [prior] := by simp
  have secondOut : second ∉ front ++ [prior] := fun inside => apart second inside second (by simp) rfl
  have priorOut : prior ∉ second :: back := fun inside =>
    apart prior priorIn prior (List.mem_cons_of_mem _ inside) rfl
  have nodeNePrior : replacement ≠ prior := fun same => freshFront (same ▸ priorIn)
  have nodeNeSecond : replacement ≠ second := fun same => freshBack (same ▸ List.mem_cons_self)
  have lasts : ((front ++ [prior]) ++ node :: second :: back).getLast? =
      ((front ++ [prior]) ++ replacement :: second :: back).getLast? := by
    simp [List.getLast?_append, List.getLast?_cons_cons]
  have start : (front ++ [prior]).getLast?.or
      ((front ++ [prior]) ++ replacement :: second :: back).getLast? = some prior := by simp
  constructor
  · rw [linked.1]
    simp [List.head?_append]
  · apply run_append.mpr
    constructor
    · rw [← lasts]
      exact ((((run.setNext freshFront).setPrev freshFront).setPrev secondOut).setLast shorter _)
    · refine ⟨?_, ?_, ?_⟩
      · rw [start]
        simp [nodeNeSecond]
      · simp [nodeNePrior]
      · exact (((rest.2.2.setNext freshBack).setPrev freshBack).setFirst
          (List.nodup_cons.mp later).2 _).setNext priorOut

end Writes

end Links
