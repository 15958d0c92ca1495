import AnyFlow.Proofs.Building
import AnyFlow.Proofs.Dict
import AnyFlow.Workload

namespace AnyFlow

def Node.bare (n : Node) : Node := { n with children := [] }

def Tree.bareNodes (t : Tree) : List Node := t.nodes.toList.map Node.bare

theorem Tree.length_bareNodes (t : Tree) : t.bareNodes.length = t.size := by
  rw [bareNodes, List.length_map, Array.length_toList, size]

/-- In a grown tree the parents tell the children. -/
theorem Tree.Grown.node?_of_bareNodes {t : Tree} (h : t.Grown) {i : Nat} {n : Node}
    (hn : t.bareNodes[i]? = some n) :
    t.node? i = some { n with children := t.offspring (some i) } := by
  rw [bareNodes, List.getElem?_map, Array.getElem?_toList] at hn
  obtain ⟨m, hm, rfl⟩ := Option.map_eq_some_iff.mp hn
  rw [node?, hm, ← h.children hm]
  rfl

theorem map_modify {α β : Type} (g : α → β) (f : α → α) (f' : β → β)
    (h : ∀ a, g (f a) = f' (g a)) (l : List α) (i : Nat) :
    (l.modify i f).map g = (l.map g).modify i f' := by
  refine List.ext_getElem? fun j ↦ ?_
  rw [List.getElem?_map, List.getElem?_modify, List.getElem?_modify, List.getElem?_map]
  cases l[j]? with
  | none => rfl
  | some a => by_cases hj : i = j <;> simp [hj, h]

namespace Builder

variable {b : Builder}

theorem bareNodes_addChild (b : Builder) (parent : Nat) (role : Role) (kind : Kind) :
    (b.addChild parent role kind).tree.bareNodes =
      b.tree.bareNodes ++ [b.newNode (some parent) (some role) kind] := by
  rw [Tree.bareNodes, addChild, tree_mapNodes, Array.toList_push, Array.toList_modify,
    List.map_append]
  have hold := map_modify Node.bare (fun n ↦ { n with children := n.children ++ [b.nextId] }) id
    (fun _ ↦ rfl) b.tree.nodes.toList parent
  rw [List.modify_id] at hold
  exact congrArg (· ++ [b.newNode (some parent) (some role) kind]) hold

theorem bareNodes_setValue (b : Builder) (i : Nat) (value : Json.Value) :
    (b.setValue i value).tree.bareNodes =
      b.tree.bareNodes.modify i fun n ↦ { n with value := value } := by
  rw [Tree.bareNodes, setValue, tree_mapNodes, Array.toList_modify]
  exact map_modify Node.bare _ (fun n ↦ { n with value := value }) (fun _ ↦ rfl) _ i

theorem bareNodes_setValue_last {ns : List Node} {n : Node} (hb : b.tree.bareNodes = ns ++ [n])
    (value : Json.Value) : (b.setValue ns.length value).tree.bareNodes =
      ns ++ [{ n with value := value }] := by
  rw [bareNodes_setValue, hb]
  clear hb
  induction ns with
  | nil => rfl
  | cons m ns ih => exact congrArg (m :: ·) ih

end Builder

namespace Workload

def Draft.location (d : Draft) : Location :=
  ⟨d.builder.tree.file, d.builder.line, d.builder.column, Span.zero⟩

def Draft.size (d : Draft) : Nat := d.builder.tree.size

structure Draft.Adds (d d' : Draft) (ns : List Node) (es : List (Nat × Ty)) : Prop where
  grown : d.builder.tree.Grown → d'.builder.tree.Grown
  file_eq : d'.builder.tree.file = d.builder.tree.file
  nodes_eq : d'.builder.tree.bareNodes = d.builder.tree.bareNodes ++ ns
  types_eq (before : List (Nat × Ty)) (h : d.types = .ofList before) :
    d'.types = .ofList (before ++ es)

section Adds

variable {d d' d'' : Draft} {ns ns' : List Node} {es es' : List (Nat × Ty)}

theorem Draft.Adds.refl : d.Adds d [] [] :=
  ⟨id, rfl, (List.append_nil _).symm, fun _ h ↦ (List.append_nil _).symm ▸ h⟩

theorem Draft.Adds.trans (h : d.Adds d' ns es) (h' : d'.Adds d'' ns' es') :
    d.Adds d'' (ns ++ ns') (es ++ es') where
  grown ht := h'.grown (h.grown ht)
  file_eq := h'.file_eq.trans h.file_eq
  nodes_eq := by rw [h'.nodes_eq, h.nodes_eq, List.append_assoc]
  types_eq before hb := by
    rw [h'.types_eq _ (h.types_eq before hb), List.append_assoc]

theorem Draft.Adds.size_eq (h : d.Adds d' ns es) : d'.size = d.size + ns.length := by
  rw [size, size, ← Tree.length_bareNodes, h.nodes_eq, List.length_append, Tree.length_bareNodes]

end Adds

/-- To each draft with `base` nodes at a place the writer adds the same nodes and types, and it
returns the same. -/
def Writes {α : Type} (w : Writer α) (place : Location) (base : Nat) (a : α) (ns : List Node)
    (es : List (Nat × Ty)) : Prop :=
  ∀ d : Draft, d.size = base → d.location = place →
    ∃ d', w.run d = .ok (a, d') ∧ d'.location = place ∧ d.Adds d' ns es

def added (place : Location) (id parent : Nat) (role : Role) (kind : Kind) : Node :=
  ⟨id, some parent, kind, some role, .null, [], place⟩

def named (place : Location) (id parent : Nat) (role : Role) (name : String) : Node :=
  { added place id parent role .identifier with value := .text name }

namespace Writes

variable {α β : Type} {w : Writer α} {f : α → Writer β} {place : Location} {base parent : Nat}
  {a : α} {c : β} {ns ns' : List Node} {es es' : List (Nat × Ty)} {role : Role} {kind : Kind}

theorem pure (a : α) : Writes (pure a) place base a [] [] :=
  fun d _ hp ↦ ⟨d, rfl, hp, .refl⟩

theorem bind (hw : Writes w place base a ns es)
    (hf : Writes (f a) place (base + ns.length) c ns' es') :
    Writes (w >>= f) place base c (ns ++ ns') (es ++ es') := by
  intro d hd hp
  obtain ⟨d', hrun, hp', hadds⟩ := hw d hd hp
  obtain ⟨d'', hrun', hp'', hadds'⟩ := hf d' (hd ▸ hadds.size_eq) hp'
  refine ⟨d'', ?_, hp'', hadds.trans hadds'⟩
  rw [StateT.run_bind, hrun]
  exact hrun'

theorem child (hp : parent < base) :
    Writes (Writer.child parent role kind) place base base
      [added place base parent role kind] [] := by
  intro d hd hat
  have hparent : parent < d.builder.tree.size := hp.trans_eq hd.symm
  let d' : Draft := ⟨d.builder.addChild parent role kind, d.types⟩
  have hfile : d'.builder.tree.file = d.builder.tree.file := rfl
  refine ⟨d', ?_, hat, ⟨(Builder.grows_addChild _ role kind hparent).grown, hfile, ?_, ?_⟩⟩
  · have hchild : d.builder.child parent role kind = .ok d'.builder := if_pos hparent
    show (d.builder.child parent role kind).map _ = _
    rw [hchild, ← hd]
    rfl
  · rw [Builder.bareNodes_addChild, ← hat, ← hd]
    rfl
  · intro before h
    rw [List.append_nil]
    exact h

theorem identifier (hp : parent < base) (name : String) :
    Writes (Writer.identifier parent role name) place base base
      [named place base parent role name] [] := by
  intro d hd hat
  have hchild : Writes (Writer.child parent role .identifier) place base base
      [added place base parent role .identifier] [] := child hp
  obtain ⟨d', hrun, hat', hadds⟩ := hchild d hd hat
  let d'' : Draft := ⟨d'.builder.setValue base (.text name), d'.types⟩
  have hlinks : Tree.SameLinks d'.builder.tree d''.builder.tree :=
    .modify d'.builder.tree (f := fun n ↦ { n with value := .text name }) (fun _ ↦ rfl) base
  have hbase : d.builder.tree.bareNodes.length = base := (Tree.length_bareNodes _).trans hd
  refine ⟨d'', ?_, hat', fun ht ↦ hlinks.grown (hadds.grown ht), hadds.file_eq, ?_,
    hadds.types_eq⟩
  · rw [Writer.identifier, StateT.run_bind, hrun]
    rfl
  · have hlast := Builder.bareNodes_setValue_last hadds.nodes_eq (.text name)
    rw [hbase] at hlast
    exact hlast

theorem type (id : Nat) (ty : Ty) :
    Writes (Writer.type id ty) place base () [] [(id, ty)] := by
  intro d hd hat
  refine ⟨⟨d.builder, d.types.insert id ty⟩, rfl, hat, fun h ↦ h, rfl,
    (List.append_nil _).symm, ?_⟩
  intro before h
  rw [h, TypeTable.ofList, Dict.ofList_eq_foldl, TypeTable.ofList, Dict.ofList_eq_foldl,
    List.foldl_append]
  rfl

end Writes

end Workload

end AnyFlow
