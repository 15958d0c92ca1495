import AnyFlow.Proofs.Dict
import AnyFlow.Proofs.Matching
import AnyFlow.Tree.Builder

namespace AnyFlow

namespace Text

variable {pattern value u v : List Char}

/-- Where the pattern does not begin, nothing changes. -/
theorem replaceChars_append (h : ∀ s, s <:+ u → s ≠ [] → ¬ pattern <+: s ++ v) :
    replaceChars pattern value 0 (u ++ v) = u ++ replaceChars pattern value 0 v := by
  induction u with
  | nil => rfl
  | cons c cs ih =>
    have hc : ¬ pattern.isPrefixOf (c :: (cs ++ v)) := fun hp ↦
      h (c :: cs) List.suffix_rfl (List.cons_ne_nil c cs) (List.isPrefixOf_iff_prefix.mp hp)
    have hcs (s : List Char) (hs : s <:+ cs) := h s (hs.trans (List.suffix_cons c cs))
    rw [List.cons_append, replaceChars, if_neg hc, ih hcs, List.cons_append]

theorem replaceChars_skip :
    replaceChars pattern value u.length (u ++ v) = replaceChars pattern value 0 v := by
  induction u with
  | nil => rfl
  | cons c cs ih => exact ih

theorem replaceChars_pattern (hp : pattern ≠ []) :
    replaceChars pattern value 0 (pattern ++ v) = value ++ replaceChars pattern value 0 v := by
  obtain ⟨c, cs, rfl⟩ := List.exists_cons_of_ne_nil hp
  have hc : (c :: cs).isPrefixOf (c :: (cs ++ v)) :=
    List.isPrefixOf_iff_prefix.mpr (List.prefix_append (c :: cs) v)
  rw [List.cons_append, replaceChars, if_pos hc, List.length_cons, Nat.add_sub_cancel,
    replaceChars_skip]

theorem not_prefix_of_notMem {c : Char} {cs : List Char} (hc : c ∉ u) (s : List Char)
    (hs : s <:+ u) (hne : s ≠ []) : ¬ c :: cs <+: s ++ v := by
  obtain ⟨d, s, rfl⟩ := List.exists_cons_of_ne_nil hne
  intro hp
  exact hc ((List.cons_prefix_cons.mp hp).1 ▸ hs.mem List.mem_cons_self)

theorem replace_once {pattern before after : String} {c : Char} {cs : List Char}
    (hp : pattern.toList = c :: cs) (hb : c ∉ before.toList) (ha : c ∉ after.toList)
    (value : String) : replace pattern value (before ++ pattern ++ after) =
      before ++ value ++ after := by
  have hafter : replaceChars (c :: cs) value.toList 0 (after.toList ++ []) = after.toList ++ [] :=
    replaceChars_append (not_prefix_of_notMem ha)
  rw [List.append_nil] at hafter
  rw [replace, String.toList_append, String.toList_append, List.append_assoc, hp,
    replaceChars_append (not_prefix_of_notMem hb),
    replaceChars_pattern (List.cons_ne_nil c cs), hafter, ← String.toList_append,
    ← String.toList_append, String.ofList_toList, String.append_assoc]

theorem infix_of_notMem_left {c : Char} {cs : List Char} (hc : c ∉ u)
    (h : c :: cs <:+: u ++ v) : c :: cs <:+: v := by
  induction u with
  | nil => exact h
  | cons d ds ih =>
    rcases List.infix_cons_iff.mp h with h | h
    · exact absurd h (not_prefix_of_notMem hc _ List.suffix_rfl (List.cons_ne_nil d ds))
    · exact ih (List.not_mem_of_not_mem_cons hc) h

theorem infix_of_notMem_right {c : Char} {cs : List Char} (hc : c ∉ v)
    (h : cs ++ [c] <:+: u ++ v) : cs ++ [c] <:+: u := by
  have h' := List.reverse_infix.mpr h
  rw [List.reverse_concat, List.reverse_append] at h'
  have hu := infix_of_notMem_left (mt List.mem_reverse.mp hc) h'
  rwa [← List.reverse_concat, List.reverse_infix] at hu

/-- The text can be no part of a mark. -/
def IsPlain (s : String) : Prop := ∀ c ∈ s.toList, c ≠ '\x7b' ∧ c ≠ '\x7d'

theorem isPlain_ofList {cs : List Char} (h : cs.all fun c ↦ c != '\x7b' && c != '\x7d') :
    IsPlain (String.ofList cs) := by
  rw [IsPlain, String.toList_ofList]
  simpa using h

theorem IsPlain.append {s s' : String} (h : IsPlain s) (h' : IsPlain s') : IsPlain (s ++ s') := by
  rw [IsPlain, String.toList_append, List.forall_mem_append]
  exact ⟨h, h'⟩

end Text

namespace Template

variable {t : Template} {value : String → String}

def filledWith (t : Template) (value : String → String) : String :=
  t.before ++ t.hole.elim "" value ++ t.after

theorem text_eq : t.text = t.filledWith mark := by
  rw [text, filledWith]
  cases t.hole <;> rfl

def IsPlain (t : Template) : Prop := Text.IsPlain t.before ∧ Text.IsPlain t.after

theorem toList_mark (key : String) :
    (mark key).toList = '\x7b' :: ('\x7b' :: key.toList ++ ['\x7d']) ++ ['\x7d'] := by
  simp [mark]

theorem IsPlain.replace_text (ht : t.IsPlain) {key : String} (hk : t.hole = some key)
    (value : String → String) :
    Text.replace (mark key) (value key) t.text = t.filledWith value := by
  have hbefore : '\x7b' ∉ t.before.toList := fun hc ↦ (ht.1 _ hc).1 rfl
  have hafter : '\x7b' ∉ t.after.toList := fun hc ↦ (ht.2 _ hc).1 rfl
  rw [text_eq, filledWith, filledWith, hk]
  exact Text.replace_once (toList_mark key) hbefore hafter (value key)

/-- What is marked in a filled template is marked in what fills it. -/
theorem IsPlain.marked (ht : t.IsPlain) {key : String}
    (h : (mark key).toList <:+: (t.filledWith value).toList) :
    ∃ hole ∈ t.hole, (mark key).toList <:+: (value hole).toList := by
  have hbefore : '\x7b' ∉ t.before.toList := fun hc ↦ (ht.1 _ hc).1 rfl
  have hafter : '\x7d' ∉ t.after.toList := fun hc ↦ (ht.2 _ hc).2 rfl
  rw [filledWith, String.toList_append, String.toList_append, toList_mark] at h
  have hin : (mark key).toList <:+: (t.hole.elim "" value).toList := by
    rw [toList_mark]
    exact Text.infix_of_notMem_left hbefore (Text.infix_of_notMem_right hafter h)
  cases hhole : t.hole with
  | none =>
    rw [hhole, Option.elim_none, String.toList_empty, List.infix_nil, toList_mark] at hin
    exact nomatch hin
  | some hole =>
    rw [hhole] at hin
    exact ⟨hole, rfl, hin⟩

end Template

theorem Message.isPlain_template (m : Message) : m.template.IsPlain := by
  cases m with
  | letNullish =>
    exact ⟨Text.isPlain_ofList rfl, .append (Text.isPlain_ofList rfl) (Text.isPlain_ofList rfl)⟩
  | initialAnnotated | initialEmptyArray =>
    exact ⟨.append (Text.isPlain_ofList rfl) (Text.isPlain_ofList rfl), Text.isPlain_ofList rfl⟩
  | _ => exact ⟨Text.isPlain_ofList rfl, Text.isPlain_ofList rfl⟩

namespace Finding

variable {f : Finding}

theorem keys_ofNode {n : Node} {m : Message} {data : List (String × String)}
    (h : data.map Prod.fst = m.placeholders) : (ofNode n m data).data.keys = m.placeholders := by
  have hordered : (data.map Prod.fst).Pairwise (· < ·) := by
    rw [h, Message.placeholders_eq]
    cases m.template.hole with
    | none => exact .nil
    | some key => exact List.pairwise_singleton _ key
  rw [← h, ofNode, Dict.keys]
  exact congrArg (List.map Prod.fst) (Entries.ofList_of_ordered (List.pairwise_map.mp hordered))

/-- A finding with a datum for the hole of its message reads as the template with the datum in the
hole. The datum is not searched for marks. -/
theorem exists_render_eq (h : f.data.keys = f.message.placeholders) :
    ∃ value : String → String,
      (∀ key ∈ f.message.placeholders, f.data.get? key = some (value key)) ∧
      f.render = f.message.template.filledWith value := by
  cases hhole : f.message.template.hole with
  | none =>
    have hempty : f.message.placeholders = [] := by rw [Message.placeholders_eq, hhole]; rfl
    rw [hempty] at h
    refine ⟨Template.mark, by simp [hempty], ?_⟩
    rw [render, List.map_eq_nil_iff.mp h, ← Template.text_eq]
    rfl
  | some key =>
    have hkey : f.message.placeholders = [key] := by rw [Message.placeholders_eq, hhole]; rfl
    rw [hkey] at h
    obtain ⟨x, hentries, rfl⟩ := List.map_eq_singleton_iff.mp h
    refine ⟨fun _ ↦ x.2, ?_, ?_⟩
    · rw [hkey]
      intro key hk
      rw [List.mem_singleton.mp hk, Dict.get?, hentries]
      exact List.lookup_cons_self
    · rw [render, hentries]
      exact f.message.isPlain_template.replace_text hhole fun _ ↦ x.2

end Finding

/-- On a checked tree every finding is told under the name of the analysis, at a visited node and
in its place, and with a datum for exactly the holes of its message. Its text is the template with
the datum in the hole, and a mark that is left in it is a part of the datum. -/
theorem findings_readable {t : Tree} (T : TypeTable) (o : Options) (h : t.checkLinks = .ok ())
    {f : Finding} (hf : f ∈ analyze t T.oracle o) :
    f.rule = "no-unsafe-any" ∧
    (∃ n ∈ t.preorder, t.Has n ∧ f.anchor = n.id ∧ f.location = n.location) ∧
    f.data.keys = f.message.placeholders ∧
    ∃ value : String → String,
      (∀ key ∈ f.message.placeholders, f.data.get? key = some (value key)) ∧
      f.message.template.text = f.message.template.filledWith Template.mark ∧
      f.render = f.message.template.filledWith value ∧
      ∀ key, (Template.mark key).toList <:+: f.render.toList →
        ∃ hole ∈ f.message.placeholders, (Template.mark key).toList <:+: (value hole).toList := by
  have hw := Tree.checkLinks_eq_ok_iff.mp h
  obtain ⟨n, hn, hf⟩ := (Context.mem_findings hw).mp hf
  obtain ⟨a, ha, data, he, hdata, -⟩ := Context.exists_ofNode hw hn hf
  have hkeys : f.data.keys = f.message.placeholders :=
    (congrArg (fun g : Finding ↦ g.data.keys) he).trans (Finding.keys_ofNode hdata)
  obtain ⟨value, hvalue, hrender⟩ := Finding.exists_render_eq hkeys
  refine ⟨congrArg Finding.rule he, ⟨a, ha, Tree.has_of_mem_preorder hw ha,
    congrArg Finding.anchor he, congrArg Finding.location he⟩, hkeys, value, hvalue,
    Template.text_eq, hrender, fun key hk ↦ ?_⟩
  rw [hrender] at hk
  obtain ⟨hole, hh, hin⟩ := f.message.isPlain_template.marked hk
  refine ⟨hole, ?_, hin⟩
  rw [Message.placeholders_eq]
  exact Option.mem_toList.mpr hh

/-- A reference to a type whose name looks like the hole of the message. -/
def markedSample : Tree :=
  (Builder.performAll (.new "marked.ts")
    [.root .typeReference, .value 0 (.text (Template.mark "typeName"))]).tree

theorem findings_readable_markedSample :
    let T : TypeTable := .ofList [(0, .any)]
    let f := Finding.ofNode markedSample.nodes[0]! .typeReference
      [("typeName", Template.mark "typeName")]
    markedSample.checkLinks = .ok () ∧ f ∈ analyze markedSample T.oracle .defaults ∧
    f.data.keys = ["typeName"] ∧
    f.render = "Referenced type \x7b\x7btypeName\x7d\x7d resolves to `any`." := by
  intro T f
  have h : markedSample.checkLinks = .ok () := rfl
  have hf : f ∈ analyze markedSample T.oracle .defaults := by decide +kernel
  obtain ⟨-, -, hkeys, value, hvalue, -, hrender, -⟩ := findings_readable T .defaults h hf
  have hname : value "typeName" = Template.mark "typeName" :=
    (Option.some.inj (hvalue "typeName" List.mem_cons_self)).symm
  refine ⟨h, hf, hkeys, ?_⟩
  rw [hrender, Template.filledWith, show f.message.template.hole = some "typeName" from rfl,
    Option.elim_some, hname]
  decide +kernel

end AnyFlow
