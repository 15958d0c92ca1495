import AnyFlow.Proofs.Rendering

namespace AnyFlow

namespace Text

variable {pattern value u v cs : List Char} {c : Char} {skip : Nat}

theorem replaceChars_of_absent (h : ¬ pattern <:+: u) : replaceChars pattern value 0 u = u := by
  have hu : replaceChars pattern value 0 (u ++ []) = u ++ [] := by
    refine replaceChars_append fun s hs _ hp ↦ h ?_
    rw [List.append_nil] at hp
    exact hp.isInfix.trans hs.isInfix
  rwa [List.append_nil] at hu

theorem prefix_of_notMem_right (hc : c ∉ v) (h : cs ++ [c] <+: u ++ v) : cs ++ [c] <+: u := by
  rcases List.prefix_or_prefix_of_prefix h (List.prefix_append u v) with h' | ⟨w, hw⟩
  · exact h'
  · -- what stands past the end of `u` would end in the last character of the pattern
    rcases List.eq_nil_or_concat' w with rfl | ⟨w, d, rfl⟩
    · rw [List.append_nil] at hw
      exact hw ▸ List.prefix_rfl
    · rw [← hw, List.prefix_append_right_inj] at h
      rw [← List.append_assoc] at hw
      have hd : d = c := List.singleton_injective (List.append_inj_right' hw rfl)
      exact absurd (h.subset (by simp [hd])) hc

theorem replaceChars_append_right (hc : c ∉ v) (hs : skip ≤ u.length) :
    replaceChars (cs ++ [c]) value skip (u ++ v) = replaceChars (cs ++ [c]) value skip u ++ v := by
  induction u generalizing skip with
  | nil =>
    rw [Nat.le_zero.mp hs]
    exact replaceChars_of_absent fun h ↦ hc (h.subset (by simp))
  | cons d u ih =>
    cases skip with
    | succ skip => exact ih (Nat.le_of_succ_le_succ hs)
    | zero =>
      by_cases hp : cs ++ [c] <+: d :: u
      · have hp' : cs ++ [c] <+: d :: (u ++ v) := hp.trans (List.prefix_append (d :: u) v)
        have hlen : (cs ++ [c]).length - 1 ≤ u.length := Nat.sub_le_of_le_add hp.length_le
        rw [List.cons_append, replaceChars, replaceChars,
          if_pos (List.isPrefixOf_iff_prefix.mpr hp), if_pos (List.isPrefixOf_iff_prefix.mpr hp'),
          ih hlen, List.append_assoc]
      · have hp' : ¬ cs ++ [c] <+: d :: (u ++ v) := fun h ↦ hp (prefix_of_notMem_right hc h)
        rw [List.cons_append, replaceChars, replaceChars,
          if_neg (mt List.isPrefixOf_iff_prefix.mp hp),
          if_neg (mt List.isPrefixOf_iff_prefix.mp hp'), ih (Nat.zero_le _), List.cons_append]

theorem replace_of_absent {pattern text : String} (h : ¬ pattern.toList <:+: text.toList)
    (value : String) : replace pattern value text = text := by
  rw [replace, replaceChars_of_absent h, String.ofList_toList]

/-- Between texts that lack its first and its last character a pattern is replaced on its own. -/
theorem replace_between {pattern before after : String} {c d : Char} {cs : List Char}
    (hp : pattern.toList = c :: cs ++ [d]) (hb : c ∉ before.toList) (ha : d ∉ after.toList)
    (value text : String) :
    replace pattern value (before ++ text ++ after) =
      before ++ replace pattern value text ++ after := by
  have hbefore : replaceChars (c :: cs ++ [d]) value.toList 0
      (before.toList ++ (text.toList ++ after.toList)) = before.toList ++
        replaceChars (c :: cs ++ [d]) value.toList 0 (text.toList ++ after.toList) :=
    replaceChars_append (not_prefix_of_notMem hb)
  rw [replace, replace, hp, String.toList_append, String.toList_append, List.append_assoc, hbefore,
    replaceChars_append_right ha (Nat.zero_le _)]
  simp only [String.ofList_append, String.ofList_toList, String.append_assoc]

end Text

namespace Template

variable {t : Template} {key p : String} {value : String → String}

/-- A mark is replaced in what fills the hole, and nowhere beside it. -/
theorem IsPlain.replace_filledWith (ht : t.IsPlain) (key datum : String) :
    Text.replace (mark key) datum (t.filledWith value) =
      t.filledWith fun p ↦ Text.replace (mark key) datum (value p) := by
  have hbefore : '\x7b' ∉ t.before.toList := fun hc ↦ (ht.1 _ hc).1 rfl
  have hafter : '\x7d' ∉ t.after.toList := fun hc ↦ (ht.2 _ hc).2 rfl
  rw [filledWith, Text.replace_between (toList_mark key) hbefore hafter, filledWith]
  cases t.hole with
  | none => rfl
  | some p => rfl

theorem count_open_mark (key : String) :
    (mark key).toList.count '\x7b' = key.toList.count '\x7b' + 2 := by
  simp [toList_mark]

theorem count_close_mark (key : String) :
    (mark key).toList.count '\x7d' = key.toList.count '\x7d' + 2 := by
  simp [toList_mark]

theorem eq_of_mark_within (hp : Text.IsPlain p) (h : (mark key).toList <:+: (mark p).toList) :
    key = p := by
  obtain ⟨u, v, he⟩ := h
  have hopen := congrArg (List.count '\x7b') he
  have hclose := congrArg (List.count '\x7d') he
  rw [List.count_append, List.count_append, count_open_mark, count_open_mark,
    List.count_eq_zero_of_not_mem fun hc ↦ (hp _ hc).1 rfl] at hopen
  rw [List.count_append, List.count_append, count_close_mark, count_close_mark,
    List.count_eq_zero_of_not_mem fun hc ↦ (hp _ hc).2 rfl] at hclose
  -- the inner mark takes both pairs of braces, and anything beside it would begin or end in one
  have hu : u = [] := by
    cases u with
    | nil => rfl
    | cons c u =>
      rw [toList_mark p, List.cons_append] at he
      rw [(List.cons.inj he).1, List.count_cons_self] at hopen
      omega
  have hv : v = [] := by
    rcases List.eq_nil_or_concat' v with rfl | ⟨v, c, rfl⟩
    · rfl
    · rw [toList_mark p, ← List.append_assoc] at he
      have hc : c = '\x7d' := List.singleton_injective (List.append_inj_right' he rfl)
      rw [hc, List.count_append, List.count_singleton_self] at hclose
      omega
  rw [hu, hv, List.append_nil, List.nil_append] at he
  simpa [mark] using String.toList_inj.mp he

theorem replace_mark_self (p datum : String) : Text.replace (mark p) datum (mark p) = datum := by
  have hone : Text.replace (mark p) datum ("" ++ mark p ++ "") = "" ++ datum ++ "" :=
    Text.replace_once (toList_mark p) (by simp) (by simp) datum
  simpa using hone

end Template

theorem Message.isPlain_hole {m : Message} {p : String} (h : m.template.hole = some p) :
    Text.IsPlain p := by
  have hmem : p ∈ ["index", "kind", "name", "operator", "typeName"] := by
    cases m <;> cases h <;> simp
  simp only [List.mem_cons, List.not_mem_nil, or_false] at hmem
  rcases hmem with rfl | rfl | rfl | rfl | rfl <;> exact Text.isPlain_ofList rfl

namespace Finding

variable {f : Finding} {t : Template} {data u v : List (String × String)} {p : String}

theorem fill_cons (text : String) (x : String × String) :
    fill text (x :: data) = fill (Text.replace (Template.mark x.1) x.2 text) data := rfl

theorem fill_append (text : String) : fill text (u ++ v) = fill (fill text u) v := List.foldl_append

theorem fill_filledWith (ht : t.IsPlain) (value : String → String) :
    fill (t.filledWith value) data = t.filledWith fun p ↦ fill (value p) data := by
  induction data generalizing value with
  | nil => rfl
  | cons x data ih =>
    simp only [fill_cons]
    rw [ht.replace_filledWith, ih]

theorem fill_of_not_marked {text : String}
    (h : ∀ x ∈ data, ¬ (Template.mark x.1).toList <:+: text.toList) : fill text data = text := by
  induction data with
  | nil => rfl
  | cons x data ih =>
    obtain ⟨hx, hdata⟩ := List.forall_mem_cons.mp h
    rw [fill_cons, Text.replace_of_absent hx]
    exact ih hdata

theorem render_eq (f : Finding) : f.render =
    f.message.template.filledWith fun p ↦ fill (Template.mark p) f.data.entries := by
  rw [render, Template.text_eq, fill_filledWith f.message.isPlain_template]

theorem fill_mark_of_lookup_none (hp : Text.IsPlain p) (h : data.lookup p = none) :
    fill (Template.mark p) data = Template.mark p := by
  refine fill_of_not_marked fun x hx hin ↦ ?_
  have hne := List.lookup_eq_none_iff.mp h x hx
  rw [Template.eq_of_mark_within hp hin] at hne
  simp at hne

/-- In ordered data the entries before the one of `p` change nothing, and those after it fill what
it has put in. -/
theorem fill_mark_of_lookup_some {v : String} (hp : Text.IsPlain p) (ho : Entries.Ordered data)
    (h : data.lookup p = some v) :
    fill (Template.mark p) data = fill v (data.filter (p < ·.1)) := by
  obtain ⟨early, late, rfl⟩ := List.append_of_mem (ho.mem_iff_lookup.mpr h)
  obtain ⟨-, hlate, hbefore⟩ := List.pairwise_append.mp ho
  have hearly (x : String × String) (hx : x ∈ early) : x.1 < p := hbefore x hx _ List.mem_cons_self
  have hfilter : (early ++ (p, v) :: late).filter (p < ·.1) = late := by
    rw [List.filter_append, List.filter_eq_nil_iff.mpr fun x hx ↦ ?_, List.nil_append,
      List.filter_cons_of_neg (by simp), List.filter_eq_self.mpr fun x hx ↦ ?_]
    · exact decide_eq_true ((List.pairwise_cons.mp hlate).1 x hx)
    · exact fun hlt ↦ Std.lt_irrefl (Std.lt_trans (hearly x hx) (of_decide_eq_true hlt))
  have hkept : fill (Template.mark p) early = Template.mark p := by
    refine fill_of_not_marked fun x hx hin ↦ ?_
    exact Std.lt_irrefl (Template.eq_of_mark_within hp hin ▸ hearly x hx)
  rw [hfilter, fill_append, hkept, fill_cons, Template.replace_mark_self]

/-- Only the datum of the hole counts, and it is put in once. If the message has no hole or its
datum is missing, the template is told as it is. Otherwise the datum stands between the two parts
of the template, filled in its turn by the data with later keys, so that it stands there as it is
unless it holds a mark of one of those. -/
theorem render_substitutes_once (f : Finding) :
    let t := f.message.template
    ((∀ p ∈ t.hole, f.data.get? p = none) → f.render = t.text) ∧
    ∀ p v, t.hole = some p → f.data.get? p = some v →
      t.text = t.before ++ Template.mark p ++ t.after ∧
      f.render = t.before ++ fill v (f.data.entries.filter (p < ·.1)) ++ t.after ∧
      ((∀ key ∈ f.data.keys, p < key → ¬ (Template.mark key).toList <:+: v.toList) →
        f.render = t.before ++ v ++ t.after) := by
  intro t
  have hrender := f.render_eq
  constructor
  · intro hnone
    rw [hrender, Template.text_eq, Template.filledWith, Template.filledWith]
    cases hhole : f.message.template.hole with
    | none => rfl
    | some p =>
      rw [Option.elim_some, Option.elim_some,
        fill_mark_of_lookup_none (Message.isPlain_hole hhole) (hnone p hhole)]
  · intro p v hhole hv
    have hfilled : f.render = t.before ++ fill v (f.data.entries.filter (p < ·.1)) ++ t.after := by
      rw [hrender, Template.filledWith, hhole, Option.elim_some,
        fill_mark_of_lookup_some (Message.isPlain_hole hhole) f.data.ordered hv]
    refine ⟨?_, hfilled, fun hlate ↦ ?_⟩
    · rw [Template.text_eq, Template.filledWith, hhole, Option.elim_some]
    · rw [hfilled, fill_of_not_marked fun x hx ↦ ?_]
      obtain ⟨hmem, hlt⟩ := List.mem_filter.mp hx
      exact hlate x.1 (List.mem_map_of_mem hmem) (of_decide_eq_true hlt)

/-- A datum with the mark of a later key is filled again, but not with its own. -/
example : Finding.render ⟨ruleId, .assigned, 0, ⟨"a.ts", 1, 1, Span.zero⟩,
    .ofList [("operator", "\x7b\x7bz\x7d\x7d"), ("z", "\x7b\x7boperator\x7d\x7d")]⟩ =
    "Assigning an `any` typed value with \x7b\x7boperator\x7d\x7d is unsafe." := by
  decide +kernel

end Finding

end AnyFlow
