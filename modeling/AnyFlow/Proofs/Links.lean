import Mathlib.Data.List.Nodup
import AnyFlow.Tree.Links

namespace AnyFlow

namespace Slots

variable {α : Type} {size : Nat}

def Filled (s : Slots α size) (i : Nat) : Prop := ∃ a, s.look? i = some (some a)

def Marks (s : Slots α size) (ids : List Nat) : Prop := ∀ i, s.Filled i ↔ i ∈ ids

theorem marks_empty : (empty : Slots α size).Marks [] := by
  intro i
  simp [Filled, look?, empty, Vector.getElem?_replicate]

theorem filled_of_fill? {s s' : Slots α size} {i : Nat} {a b : α}
    (h : s.fill? i a = some (some b, s')) : s.Filled i := by
  unfold fill? at h
  split at h
  · rename_i hi
    exact ⟨b, by simp [look?, hi, (Prod.mk.inj (Option.some.inj h)).1]⟩
  · cases h

theorem Marks.fill? {s s' : Slots α size} {ids : List Nat} (hs : s.Marks ids) {i : Nat} {a : α}
    (h : s.fill? i a = some (none, s')) : i ∉ ids ∧ s'.Marks (ids ++ [i]) := by
  unfold Slots.fill? at h
  split at h
  · rename_i hi
    obtain ⟨hn, rfl⟩ := Prod.mk.inj (Option.some.inj h)
    refine ⟨fun hm ↦ ?_, fun j ↦ ?_⟩
    · obtain ⟨b, hb⟩ := (hs i).mpr hm
      simp [look?, hi, hn] at hb
    · rw [List.mem_append, List.mem_singleton, ← hs j]
      by_cases hj : i = j
      · subst hj
        simp [Filled, look?, hi]
      · simp [Filled, look?, hj, Ne.symm hj]
  · cases h

end Slots

namespace Check

variable {α β : Type} {f : α → Check β} {x : Check α}

theorem andThen_eq_ok {b : β} (h : x.andThen f = some (.ok b)) :
    ∃ a, x = some (.ok a) ∧ f a = some (.ok b) := by
  match x with
  | some (.ok a) => exact ⟨a, rfl, h⟩
  | some (.error e) => simp [andThen] at h
  | none => simp [andThen] at h

theorem andThen_eq_error {e : LinkError} (h : x.andThen f = some (.error e)) :
    x = some (.error e) ∨ ∃ a, x = some (.ok a) ∧ f a = some (.error e) := by
  match x with
  | some (.ok a) => exact .inr ⟨a, rfl, h⟩
  | some (.error e') => exact .inl (by simpa [andThen] using h)
  | none => simp [andThen] at h

end Check

/-- What an error says about a tree. -/
def LinkError.Holds (t : Tree) : LinkError → Prop
  | .misplaced position id => ∃ n, t.node? position = some n ∧ n.id = id ∧ id ≠ position
  | .missingChild node child =>
    (∃ n, t.node? node = some n ∧ child ∈ n.children) ∧ t.node? child = none
  | .foreignChild node child parent =>
    (∃ n, t.node? node = some n ∧ child ∈ n.children) ∧
      (∃ c, t.node? child = some c ∧ c.parent = parent) ∧ parent ≠ some node
  | .repeatedChild child => 1 < t.allChildren.count child
  | .missingRoot root => root ∈ t.roots ∧ t.node? root = none
  | .rootWithParent root => root ∈ t.roots ∧ ∃ n, t.node? root = some n ∧ n.parent ≠ none
  | .repeatedRoot root => 1 < t.roots.count root
  | .unlistedChild node => ∃ n p, t.node? node = some n ∧ n.parent = some p ∧
      ∀ m, t.node? p = some m → node ∉ m.children

namespace Tree

variable {t : Tree}

theorem exists_node?_of_lt {i : Nat} (hi : i < t.size) : ∃ n, t.node? i = some n :=
  ⟨t.nodes[i], Array.getElem?_eq_getElem hi⟩

theorem mem_allChildren {c : Nat} :
    c ∈ t.allChildren ↔ ∃ i n, t.node? i = some n ∧ c ∈ n.children := by
  rw [allChildren, List.mem_flatMap]
  constructor
  · intro hx
    obtain ⟨n, hn, hc⟩ := hx
    obtain ⟨i, hi⟩ := List.mem_iff_getElem?.mp hn
    exact ⟨i, n, by rwa [Array.getElem?_toList] at hi, hc⟩
  · intro hx
    obtain ⟨i, n, hi, hc⟩ := hx
    exact ⟨n, List.mem_iff_getElem?.mpr ⟨i, by rwa [Array.getElem?_toList]⟩, hc⟩

theorem nodup_allChildren
    (hparent : ∀ i n, t.node? i = some n → ∀ c ∈ n.children,
      ∃ m, t.node? c = some m ∧ m.parent = some i)
    (hnodup : ∀ i n, t.node? i = some n → n.children.Nodup) : t.allChildren.Nodup := by
  refine List.nodup_flatMap.mpr ⟨fun n hn ↦ ?_, ?_⟩
  · obtain ⟨i, hi⟩ := List.mem_iff_getElem?.mp hn
    exact hnodup i n (by rwa [Array.getElem?_toList] at hi)
  · rw [List.pairwise_iff_getElem]
    intro i j hi hj hlt c (hc : c ∈ t.nodes.toList[i].children)
      (hc' : c ∈ t.nodes.toList[j].children)
    have hnode {k : Nat} (hk : k < t.nodes.toList.length) :
        t.node? k = some t.nodes.toList[k] := by
      rw [node?, ← Array.getElem?_toList, List.getElem?_eq_getElem hk]
    obtain ⟨m, hm, hp⟩ := hparent i _ (hnode hi) c hc
    obtain ⟨m', hm', hp'⟩ := hparent j _ (hnode hj) c hc'
    cases Option.some.inj (hm.symm.trans hm')
    exact Nat.ne_of_lt hlt (Option.some.inj (hp.symm.trans hp'))

theorem count_of_sublist {c : Nat} {seen cs all : List Nat} (h : List.Sublist (seen ++ c :: cs) all)
    (hc : c ∈ seen) : 1 < all.count c := by
  have hs : 1 ≤ seen.count c := List.count_pos_iff.mpr hc
  have hle := h.count_le c
  rw [List.count_append, List.count_cons_self] at hle
  omega

theorem checkChildren_ok {node : Nat} {cs seen : List Nat} {owners owners' : Slots Nat t.size}
    (ho : owners.Marks seen) (hs : seen.Nodup)
    (h : t.checkChildren node cs owners = some (.ok owners')) :
    owners'.Marks (seen ++ cs) ∧ (seen ++ cs).Nodup ∧
      ∀ c ∈ cs, ∃ m, t.node? c = some m ∧ m.parent = some node := by
  fun_induction checkChildren t node cs owners generalizing seen with
  | case1 owners =>
    cases h
    simpa using ⟨ho, hs⟩
  | case6 c cs owners n hn hp owners₁ hf ih =>
    obtain ⟨hc, ho₁⟩ := ho.fill? hf
    have hs₁ : (seen ++ [c]).Nodup := by simpa using (List.nodup_concat seen c).mpr ⟨hc, hs⟩
    obtain ⟨ho', hs', hm⟩ := ih ho₁ hs₁ h
    rw [List.append_assoc, List.singleton_append] at ho' hs'
    refine ⟨ho', hs', fun x hx ↦ ?_⟩
    rcases List.mem_cons.mp hx with rfl | hx
    · exact ⟨n, hn, by simpa using hp⟩
    · exact hm x hx
  | _ => cases h

theorem checkChildren_error {node : Nat} {n : Node} {cs seen : List Nat}
    {owners : Slots Nat t.size} {e : LinkError} (hn : t.node? node = some n)
    (hcs : ∀ c ∈ cs, c ∈ n.children) (hall : List.Sublist (seen ++ cs) t.allChildren)
    (ho : owners.Marks seen) (h : t.checkChildren node cs owners = some (.error e)) :
    e.Holds t := by
  fun_induction checkChildren t node cs owners generalizing seen with
  | case1 => cases h
  | case2 c cs owners hc =>
    cases h
    exact ⟨⟨n, hn, hcs c List.mem_cons_self⟩, hc⟩
  | case3 c cs owners m hm hp =>
    cases h
    exact ⟨⟨n, hn, hcs c List.mem_cons_self⟩, ⟨m, hm, rfl⟩, hp⟩
  | case4 => cases h
  | case5 c cs owners m hm hp a owners₁ hf =>
    cases h
    exact count_of_sublist hall ((ho c).mp (Slots.filled_of_fill? hf))
  | case6 c cs owners m hm hp owners₁ hf ih =>
    refine ih (fun x hx ↦ hcs x (List.mem_cons_of_mem _ hx)) ?_
      (ho.fill? hf).2 h
    simpa using hall

theorem checkNodes_ok {i : Nat} {ns : List Node} {seen : List Nat}
    {owners owners' : Slots Nat t.size} (ho : owners.Marks seen) (hs : seen.Nodup)
    (h : t.checkNodes i ns owners = some (.ok owners')) :
    owners'.Marks (seen ++ ns.flatMap (·.children)) ∧
      (seen ++ ns.flatMap (·.children)).Nodup ∧
      ∀ k n, ns[k]? = some n → n.id = i + k ∧
        ∀ c ∈ n.children, ∃ m, t.node? c = some m ∧ m.parent = some (i + k) := by
  induction ns generalizing i seen owners with
  | nil =>
    cases h
    simpa using ⟨ho, hs⟩
  | cons n ns ih =>
    rw [checkNodes] at h
    split at h
    · cases h
    · rename_i hid
      obtain ⟨owners₁, hc, h⟩ := Check.andThen_eq_ok h
      obtain ⟨ho₁, hs₁, hm₁⟩ := checkChildren_ok ho hs hc
      obtain ⟨ho', hs', hm⟩ := ih ho₁ hs₁ h
      rw [List.append_assoc, ← List.flatMap_cons] at ho' hs'
      refine ⟨ho', hs', fun k m hk ↦ ?_⟩
      cases k with
      | zero =>
        cases Option.some.inj hk
        exact ⟨not_not.mp hid, hm₁⟩
      | succ k =>
        rw [← Nat.succ_add_eq_add_succ]
        exact hm k m hk

theorem checkNodes_error {i : Nat} {ns : List Node} {seen : List Nat}
    {owners : Slots Nat t.size} {e : LinkError}
    (hns : ∀ k n, ns[k]? = some n → t.node? (i + k) = some n)
    (hall : List.Sublist (seen ++ ns.flatMap (·.children)) t.allChildren)
    (ho : owners.Marks seen) (hs : seen.Nodup)
    (h : t.checkNodes i ns owners = some (.error e)) : e.Holds t := by
  induction ns generalizing i seen owners with
  | nil => cases h
  | cons n ns ih =>
    have hn := hns 0 n rfl
    rw [List.flatMap_cons, ← List.append_assoc] at hall
    rw [checkNodes] at h
    split at h
    · rename_i hid
      cases h
      exact ⟨n, hn, rfl, hid⟩
    · rcases Check.andThen_eq_error h with h | ⟨owners₁, hc, h⟩
      · exact checkChildren_error hn (fun _ hx ↦ hx)
          ((List.sublist_append_left _ _).trans hall) ho h
      · obtain ⟨ho₁, hs₁, -⟩ := checkChildren_ok ho hs hc
        refine ih (fun k m hk ↦ ?_) hall ho₁ hs₁ h
        rw [Nat.succ_add_eq_add_succ]
        exact hns (k + 1) m hk

theorem checkRoots_ok {rs seen : List Nat} {listed : Slots Unit t.size}
    (hl : listed.Marks seen) (hs : seen.Nodup) (h : t.checkRoots rs listed = some (.ok ())) :
    (seen ++ rs).Nodup ∧ ∀ r ∈ rs, ∃ n, t.node? r = some n ∧ n.parent = none := by
  fun_induction checkRoots t rs listed generalizing seen with
  | case1 => simpa using hs
  | case6 r rs listed n hn hp listed₁ hf ih =>
    obtain ⟨hr, hl₁⟩ := hl.fill? hf
    have hs₁ : (seen ++ [r]).Nodup := by simpa using (List.nodup_concat seen r).mpr ⟨hr, hs⟩
    obtain ⟨hs', hm⟩ := ih hl₁ hs₁ h
    rw [List.append_assoc, List.singleton_append] at hs'
    refine ⟨hs', fun x hx ↦ ?_⟩
    rcases List.mem_cons.mp hx with rfl | hx
    · exact ⟨n, hn, by simpa using hp⟩
    · exact hm x hx
  | _ => cases h

theorem checkRoots_error {rs seen : List Nat} {listed : Slots Unit t.size} {e : LinkError}
    (hall : List.Sublist (seen ++ rs) t.roots) (hl : listed.Marks seen)
    (h : t.checkRoots rs listed = some (.error e)) : e.Holds t := by
  fun_induction checkRoots t rs listed generalizing seen with
  | case1 => cases h
  | case2 r rs listed hr =>
    cases h
    exact ⟨hall.subset (by simp), hr⟩
  | case3 r rs listed n hn hp =>
    cases h
    exact ⟨hall.subset (by simp), n, hn, Option.isSome_iff_ne_none.mp hp⟩
  | case4 => cases h
  | case5 r rs listed n hn hp a listed₁ hf =>
    cases h
    exact count_of_sublist hall ((hl r).mp (Slots.filled_of_fill? hf))
  | case6 r rs listed n hn hp listed₁ hf ih =>
    refine ih ?_ (hl.fill? hf).2 h
    simpa using hall

theorem checkOwned_ok {size i : Nat} {ns : List Node} {seen : List Nat}
    {owners : Slots Nat size} (ho : owners.Marks seen)
    (h : checkOwned owners i ns = some (.ok ())) {k : Nat} {n : Node} (hk : ns[k]? = some n)
    (hp : n.parent ≠ none) : i + k ∈ seen := by
  fun_induction checkOwned owners i ns generalizing k with
  | case1 => simp at hk
  | case2 i m ms hm ih =>
    cases k with
    | zero =>
      cases Option.some.inj hk
      exact absurd (Option.isNone_iff_eq_none.mp hm) hp
    | succ k =>
      rw [← Nat.succ_add_eq_add_succ]
      exact ih h hk
  | case3 => cases h
  | case4 => cases h
  | case5 i m ms hm a ha ih =>
    cases k with
    | zero => exact (ho i).mp ⟨a, ha⟩
    | succ k =>
      rw [← Nat.succ_add_eq_add_succ]
      exact ih h hk

theorem checkOwned_error {i : Nat} {ns : List Node} {owners : Slots Nat t.size} {e : LinkError}
    (hns : ∀ k n, ns[k]? = some n → t.node? (i + k) = some n)
    (ho : owners.Marks t.allChildren) (h : checkOwned owners i ns = some (.error e)) :
    e.Holds t := by
  have later {i : Nat} {n : Node} {ns : List Node}
      (hns : ∀ k m, (n :: ns)[k]? = some m → t.node? (i + k) = some m) (k : Nat) (m : Node)
      (hk : ns[k]? = some m) : t.node? (i + 1 + k) = some m := by
    rw [Nat.succ_add_eq_add_succ]
    exact hns (k + 1) m hk
  fun_induction checkOwned owners i ns with
  | case1 => cases h
  | case2 i n ns hp ih => exact ih (later hns) h
  | case3 => cases h
  | case4 i n ns hp hl =>
    cases h
    obtain ⟨p, hp⟩ := Option.ne_none_iff_exists'.mp (mt Option.isNone_iff_eq_none.mpr hp)
    refine ⟨n, p, hns 0 n rfl, hp, fun m hm hi ↦ ?_⟩
    obtain ⟨a, ha⟩ := (ho i).mpr (mem_allChildren.mpr ⟨p, m, hm, hi⟩)
    simp [ha] at hl
  | case5 i n ns hp a ha ih => exact ih (later hns) h

theorem wellLinked_of_tabledCheck (h : t.tabledCheck = some (.ok ())) : t.WellLinked := by
  obtain ⟨owners, hn, h⟩ := Check.andThen_eq_ok h
  obtain ⟨⟨⟩, hr, h⟩ := Check.andThen_eq_ok h
  obtain ⟨ho, hs, hm⟩ := checkNodes_ok Slots.marks_empty List.nodup_nil hn
  obtain ⟨hr', hroots⟩ := checkRoots_ok Slots.marks_empty List.nodup_nil hr
  simp only [List.nil_append, Nat.zero_add, Array.getElem?_toList] at ho hs hm hr'
  refine ⟨fun hi ↦ (hm _ _ hi).1, fun hi hc ↦ (hm _ _ hi).2 _ hc, fun {i p n} hi hp ↦ ?_, hs,
    fun hr ↦ hroots _ hr, hr'⟩
  have hl := checkOwned_ok ho h (k := i) (by rwa [Array.getElem?_toList]) (by simp [hp])
  rw [Nat.zero_add] at hl
  obtain ⟨j, m, hj, hc⟩ := mem_allChildren.mp hl
  obtain ⟨n', hn', hp'⟩ := (hm j m hj).2 i hc
  cases Option.some.inj (hi.symm.trans hn')
  cases Option.some.inj (hp.symm.trans hp')
  exact ⟨m, hj, hc⟩

theorem holds_of_tabledCheck {e : LinkError} (h : t.tabledCheck = some (.error e)) :
    e.Holds t := by
  have hns (k : Nat) (n : Node) (hk : t.nodes.toList[k]? = some n) : t.node? (0 + k) = some n := by
    rwa [Nat.zero_add, node?, ← Array.getElem?_toList]
  rcases Check.andThen_eq_error h with h | ⟨owners, hn, h⟩
  · exact checkNodes_error hns (List.Sublist.refl _) Slots.marks_empty List.nodup_nil h
  · rcases Check.andThen_eq_error h with h | ⟨-, -, h⟩
    · exact checkRoots_error (List.Sublist.refl _) Slots.marks_empty h
    · obtain ⟨ho, -, -⟩ := checkNodes_ok Slots.marks_empty List.nodup_nil hn
      exact checkOwned_error hns ho h

theorem WellLinked.not_holds (h : t.WellLinked) (e : LinkError) : ¬ e.Holds t := by
  cases e with
  | misplaced position id =>
    intro hx
    obtain ⟨n, hn, rfl, hid⟩ := hx
    exact hid (h.id_eq hn)
  | missingChild node child =>
    intro hx
    obtain ⟨⟨n, hn, hc⟩, hm⟩ := hx
    obtain ⟨m, hm', -⟩ := h.parent_of_mem hn hc
    simp [hm] at hm'
  | foreignChild node child parent =>
    intro hx
    obtain ⟨⟨n, hn, hc⟩, ⟨c, hc', rfl⟩, hp⟩ := hx
    obtain ⟨m, hm, hp'⟩ := h.parent_of_mem hn hc
    cases Option.some.inj (hc'.symm.trans hm)
    exact hp hp'
  | repeatedChild child =>
    intro (hc : 1 < t.allChildren.count child)
    exact Nat.not_lt.mpr (List.nodup_iff_count_le_one.mp h.nodup_children child) hc
  | missingRoot root =>
    intro hx
    obtain ⟨hr, hm⟩ := hx
    obtain ⟨n, hn, -⟩ := h.root_parent hr
    simp [hm] at hn
  | rootWithParent root =>
    intro hx
    obtain ⟨hr, n, hn, hp⟩ := hx
    obtain ⟨m, hm, hp'⟩ := h.root_parent hr
    cases Option.some.inj (hn.symm.trans hm)
    exact hp hp'
  | repeatedRoot root =>
    intro (hr : 1 < t.roots.count root)
    exact Nat.not_lt.mpr (List.nodup_iff_count_le_one.mp h.nodup_roots root) hr
  | unlistedChild node =>
    intro hx
    obtain ⟨n, p, hn, hp, hu⟩ := hx
    obtain ⟨m, hm, hc⟩ := h.mem_of_parent hn hp
    exact hu m hm hc

theorem checkLinks_eq_iff {r : Except LinkError Unit} :
    t.checkLinks = r ↔ t.tabledCheck = some r := by
  rw [checkLinks, Option.eq_some_iff_get_eq]
  exact ⟨fun h ↦ ⟨t.isSome_tabledCheck, h⟩, fun ⟨_, h⟩ ↦ h⟩

theorem checkLinks_eq_ok_iff : t.checkLinks = .ok () ↔ t.WellLinked := by
  rw [checkLinks_eq_iff]
  refine ⟨wellLinked_of_tabledCheck, fun h ↦ ?_⟩
  obtain ⟨r, hr⟩ := Option.isSome_iff_exists.mp t.isSome_tabledCheck
  cases r with
  | ok u => exact hr
  | error e => exact absurd (holds_of_tabledCheck hr) (h.not_holds e)

theorem WellLinked.mem_children_iff (h : t.WellLinked) (p c : Nat) :
    (∃ n, t.node? p = some n ∧ c ∈ n.children) ↔
      ∃ m, t.node? c = some m ∧ m.parent = some p := by
  constructor
  · intro hx
    obtain ⟨n, hn, hc⟩ := hx
    exact h.parent_of_mem hn hc
  · intro hx
    obtain ⟨m, hm, hp⟩ := hx
    exact h.mem_of_parent hm hp

theorem WellLinked.nodup_children_of_node? (h : t.WellLinked) {p : Nat} {n : Node}
    (hn : t.node? p = some n) : n.children.Nodup := by
  have hmem : n ∈ t.nodes.toList :=
    List.mem_iff_getElem?.mpr ⟨p, by rwa [Array.getElem?_toList]⟩
  exact (List.nodup_flatMap.mp h.nodup_children).1 n hmem

theorem WellLinked.count_children (h : t.WellLinked) {p c : Nat} {n : Node}
    (hn : t.node? p = some n) (hc : c ∈ n.children) :
    t.allChildren.count c = 1 ∧ n.children.count c = 1 :=
  ⟨List.count_eq_one_of_mem h.nodup_children (mem_allChildren.mpr ⟨p, n, hn, hc⟩),
    List.count_eq_one_of_mem (h.nodup_children_of_node? hn) hc⟩

/-- The check accepts exactly the well linked trees: it never reads or writes past the end of a
table, an accepted tree lists each child at its parent and nowhere else, and an error that is
told of a rejected tree holds of it. -/
theorem checkLinks_exact (t : Tree) :
    t.tabledCheck = some t.checkLinks ∧
    (t.checkLinks = .ok () ↔ t.WellLinked) ∧
    (t.checkLinks = .ok () → ∀ p c,
      ((∃ n, t.node? p = some n ∧ c ∈ n.children) ↔
        ∃ m, t.node? c = some m ∧ m.parent = some p) ∧
      ∀ n, t.node? p = some n → c ∈ n.children →
        t.allChildren.count c = 1 ∧ n.children.count c = 1) ∧
    ∀ e, t.checkLinks = .error e → e.Holds t := by
  refine ⟨checkLinks_eq_iff.mp rfl, checkLinks_eq_ok_iff, fun h p c ↦ ?_, fun e he ↦ ?_⟩
  · have hw := checkLinks_eq_ok_iff.mp h
    exact ⟨hw.mem_children_iff p c, fun n hn hc ↦ hw.count_children hn hc⟩
  · exact holds_of_tabledCheck (checkLinks_eq_iff.mp he)

end Tree

end AnyFlow
