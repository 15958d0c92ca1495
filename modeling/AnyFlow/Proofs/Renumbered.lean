import AnyFlow.Proofs.Recorded
import AnyFlow.Proofs.Renumbering

namespace AnyFlow

def Finding.renumber (f : Nat → Nat) (r : Finding) : Finding := { r with anchor := f r.anchor }

namespace Context

/-- The context `cx'` has the tree with other numbers, and the same types and options. -/
structure Mirrors (cx cx' : Context) (f : Nat → Nat) : Prop where
  linked : cx.tree.WellLinked
  linked' : cx'.tree.WellLinked
  renumbering : cx.tree.Renumbering cx'.tree f
  type?_eq {n : Node} (hn : n ∈ cx.tree.preorder) :
    cx'.oracle.type? (n.renumber f) = cx.oracle.type? n
  options_eq : cx'.options = cx.options

namespace Mirrors

variable {cx cx' : Context} {f : Nat → Nat} {n : Node} (h : cx.Mirrors cx' f)

include h

theorem resembles : cx.Resembles cx' (Node.renumber f) (Finding.renumber f) where
  linked := h.linked
  tree := h.renumbering.resembles h.linked h.linked'
  type?_eq := h.type?_eq
  options_eq := h.options_eq
  ofNode_eq _ _ _ := rfl

theorem isAnnotated_eq (hn : n ∈ cx.tree.preorder) :
    cx'.isAnnotated (n.renumber f) = cx.isAnnotated n := by
  have hchild : cx'.tree.childIn? (n.renumber f).id .typeAscription = _ :=
    h.renumbering.childIn?_map h.linked h.linked' hn
  rw [isAnnotated, isAnnotated, hchild, Option.isSome_map]

theorem foundAt_eq (hn : n ∈ cx.tree.preorder) :
    cx'.foundAt (n.renumber f) = (cx.foundAt n).map (Finding.renumber f) :=
  h.resembles.foundAt_eq hn fun _ _ hb ↦
    h.isAnnotated_eq (Tree.mem_preorder_of_childIn? h.linked hn hb)

theorem flatMap_foundAt : cx'.tree.preorder.flatMap cx'.foundAt =
    (cx.tree.preorder.flatMap cx.foundAt).map (Finding.renumber f) := by
  rw [h.renumbering.preorder_map h.linked h.linked', List.flatMap_map, List.map_flatMap]
  exact List.flatMap_congr fun n hn ↦ h.foundAt_eq hn

theorem keepsKeys :
    Report.KeepsKeys (Finding.renumber f) (cx.tree.preorder.flatMap cx.foundAt) := by
  intro x hx y hy
  obtain ⟨n, hn, hx⟩ := List.mem_flatMap.mp hx
  obtain ⟨m, hm, hy⟩ := List.mem_flatMap.mp hy
  obtain ⟨a, ha, hxa, -⟩ := exists_visited_anchor h.linked hn hx
  obtain ⟨b, hb, hyb, -⟩ := exists_visited_anchor h.linked hm hy
  have hanchor : f x.anchor = f y.anchor ↔ x.anchor = y.anchor := by
    rw [hxa, hyb]
    exact ⟨h.renumbering.injective ha hb, congrArg f⟩
  simp only [Finding.key, Finding.renumber, Prod.mk.injEq, hanchor]

theorem findings_eq : cx'.findings = cx.findings.map (Finding.renumber f) := by
  rw [Context.findings_eq, Context.findings_eq, h.flatMap_foundAt]
  exact congrArg Report.findings (Report.addAll_map (r := .empty) h.keepsKeys)

end Mirrors

end Context

/-- The numbers of the nodes do not matter, and neither do the nodes that cannot be reached. If
the visited nodes of `t` stand in `t'` under other numbers and have the types there that they have
here, the findings in `t'` are those in `t` with the anchors renumbered, in the same order. If they
stand there as they are, the findings are the same, whatever else there is. -/
theorem analyze_renumbered {t t' : Tree} (T T' : TypeTable) (o : Options)
    (h : t.checkLinks = .ok ()) (h' : t'.checkLinks = .ok ()) :
    (∀ f, t.Renumbering t' f → (∀ n ∈ t.preorder, T'.get? (f n.id) = T.get? n.id) →
      analyze t' T'.oracle o = (analyze t T.oracle o).map (Finding.renumber f)) ∧
    (t'.roots = t.roots →
      (∀ n ∈ t.preorder, t'.node? n.id = some n ∧ T'.get? n.id = T.get? n.id) →
      analyze t' T'.oracle o = analyze t T.oracle o) := by
  have hrenumbered (f : Nat → Nat) (hf : t.Renumbering t' f)
      (hT : ∀ n ∈ t.preorder, T'.get? (f n.id) = T.get? n.id) :
      analyze t' T'.oracle o = (analyze t T.oracle o).map (Finding.renumber f) := by
    let cx : Context := ⟨t, T.oracle, o⟩
    let cx' : Context := ⟨t', T'.oracle, o⟩
    have hm : cx.Mirrors cx' f :=
      { linked := Tree.checkLinks_eq_ok_iff.mp h
        linked' := Tree.checkLinks_eq_ok_iff.mp h'
        renumbering := hf
        type?_eq := fun {n} hn ↦ TypeTable.type?_oracle.trans
          ((hT n hn).trans TypeTable.type?_oracle.symm)
        options_eq := rfl }
    exact hm.findings_eq
  refine ⟨hrenumbered, fun hroots hsame ↦ ?_⟩
  have hid := hrenumbered id (.of_same hroots fun n hn ↦ (hsame n hn).1) fun n hn ↦ (hsame n hn).2
  rwa [show Finding.renumber id = id from rfl, List.map_id] at hid

/-- The statement `return x`. -/
def returnSample : Tree :=
  (Builder.performAll (.new "r.ts")
    [.root .returnStatement, .child 0 .argument .identifier, .value 1 (.text "x")]).tree

/-- The same with its two nodes exchanged, and beside it a type reference that is no root. -/
def exchangedSample : Tree where
  file := "r.ts"
  roots := [1]
  nodes := #[returnSample.nodes[1]!.renumber (1 - ·), returnSample.nodes[0]!.renumber (1 - ·),
    ⟨2, none, .typeReference, none, .text "T", [], default⟩]

theorem analyze_renumbered_exchanged :
    let T := TypeTable.ofList [(1, .any)]
    let stray := exchangedSample.nodes[2]!
    let besideSample := { returnSample with nodes := returnSample.nodes.push stray }
    returnSample.checkLinks = .ok () ∧ exchangedSample.checkLinks = .ok () ∧
    besideSample.checkLinks = .ok () ∧ returnSample.Renumbering exchangedSample (1 - ·) ∧
    analyze exchangedSample (TypeTable.ofList [(0, .any), (2, .any)]).oracle .defaults =
      (analyze returnSample T.oracle .defaults).map (Finding.renumber (1 - ·)) ∧
    analyze besideSample (TypeTable.ofList [(1, .any), (2, .any)]).oracle .defaults =
      analyze returnSample T.oracle .defaults ∧
    analyze returnSample T.oracle .defaults = [.ofNode returnSample.nodes[0]! .returned []] := by
  intro T stray besideSample
  have h : returnSample.checkLinks = .ok () := rfl
  have h' : exchangedSample.checkLinks = .ok () := rfl
  have hbeside : besideSample.checkLinks = .ok () := rfl
  have hp (n : Node) (hn : n ∈ returnSample.preorder) :
      n = returnSample.nodes[0]! ∨ n = returnSample.nodes[1]! := by
    have hmem : n ∈ [returnSample.nodes[0]!, returnSample.nodes[1]!] := hn
    simpa using hmem
  have hr : returnSample.Renumbering exchangedSample (1 - ·) := by
    constructor
    · intro n m hn hm he
      rcases hp n hn with rfl | rfl <;> rcases hp m hm with rfl | rfl
      · rfl
      · exact absurd he (by decide)
      · exact absurd he (by decide)
      · rfl
    · rfl
    · intro n hn
      rcases hp n hn with rfl | rfl
      · exact ⟨_, rfl, rfl, rfl, rfl, rfl, rfl⟩
      · exact ⟨_, rfl, rfl, rfl, rfl, rfl, rfl⟩
  refine ⟨h, h', hbeside, hr, (analyze_renumbered T _ .defaults h h').1 _ hr fun n hn ↦ ?_,
    (analyze_renumbered T _ .defaults h hbeside).2 rfl fun n hn ↦ ?_, by decide +kernel⟩
  · rcases hp n hn with rfl | rfl
    · rfl
    · rfl
  · rcases hp n hn with rfl | rfl
    · exact ⟨rfl, rfl⟩
    · exact ⟨rfl, rfl⟩

end AnyFlow
