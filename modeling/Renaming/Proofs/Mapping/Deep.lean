import Renaming.Mapping.Depth
import Renaming.Proofs.Mapping.Rectangular
import Renaming.Proofs.Text.Lines

/-!
# `Proofs/Mapping/Deep` — the table of a mapping, and the one reason why there may be none

The tiers of a mapping are chosen from its namespaces, and what is left to go wrong is the stack:
the look-ups of classes without a name of their own are as deep as the classes around them. For a
mapping that a reader has made,

> there is a table for every two namespaces of its header, in any number of frames that is not below
> the depth of its look-ups, and below that the stack is full (`refused_or_formed`).

The depth is at most one more than the number of dollar signs in a name (`Formed.depthBetween_le`),
and no more is known of it: for any number of frames there is a text of one row that is read and has
no table (`no_frames_enough`).
-/

set_option autoImplicit false

namespace Renaming

namespace Mapping

variable {m : Mapping}

theorem mem_of_nameAt {names : List (Option Text)} {tier : Nat} {name : Text}
    (h : nameAt names tier = some name) : some name ∈ names := by
  obtain ⟨hname, -⟩ := eq_some_of_bind_nonempty? h
  exact List.mem_of_getElem? (Option.join_eq_some_iff.1 hname)

/-- The look-ups for a table are no deeper than the names of classes allow. -/
theorem Formed.depthBetween_le (h : m.Formed) {n : Nat}
    (hnames : ∀ c ∈ m.classes.values, ∀ name, some name ∈ c.names → name.count '$' < n)
    (s t : Nat) : m.depthBetween s t ≤ n := by
  have hdepth : ∀ (find : Text → Option Text) {c : ClassRow} {name : Text}, c ∈ m.classes.values →
      some name ∈ c.names → nestingDepth find name ≤ n := fun find c name hc hname =>
    (nestingDepth_le find name).trans (hnames c hc name hname)
  refine Nat.max_le.2 ⟨deepest_le_iff.2 fun d hd => ?_, deepest_le_iff.2 fun d hd => ?_⟩
  · obtain ⟨c, hc, rfl⟩ := List.mem_map.1 hd
    unfold renameDepth
    split
    · rename_i hsource _
      exact hdepth _ hc (mem_of_nameAt hsource)
    · exact Nat.zero_le n
  · obtain ⟨⟨first, c⟩, hp, rfl⟩ := List.mem_map.1 hd
    have hc : c ∈ m.classes.values := List.mem_map_of_mem hp
    -- a class is kept under the first of its names
    have hfirst : some first ∈ c.names :=
      List.mem_of_mem_head? (h.rectangular.classes first c (OrderedMap.get?_eq_some_iff.2 hp)).first
    unfold ownerDepth
    refine Nat.max_le.2 ⟨?_, ?_⟩
    · split
      · exact Nat.zero_le n
      · exact hdepth _ hc hfirst
    · split
      · exact Nat.zero_le n
      · exact hdepth _ hc hfirst

/-- Where there are namespaces, the table is that between the tiers that are chosen. -/
theorem tableWithin_eq (hne : m.namespaces ≠ []) (frames : Nat) (source target : Option Text) :
    m.tableWithin frames source target =
      m.tiers source target >>= fun p => m.tableBetweenWithin frames p.1 p.2 := by
  have hnot : (m.isTiered && m.namespaces.isEmpty) = false := by
    rw [List.isEmpty_eq_false_iff.2 hne, Bool.and_false]
  unfold tableWithin
  simp only [hnot, Bool.false_eq_true, if_false]

/-- A reader refuses a text by a format fault and by no other, or it makes a rectangular mapping.
There is a table of it for every request but those for a namespace that its header does not name, in
every number of frames that the look-ups do not exceed; and they exceed none that is greater than
the number of dollar signs in each of the names. -/
theorem refused_or_formed {format : Format} {read : Text → Except Fault Mapping}
    (h : reader? format = some read) (text : Text) :
    (∃ g, read text = .error (.format g)) ∨
      ∃ m, read text = .ok m ∧ m.Formed ∧ ∀ source target,
        (m.isTiered = true ∧ ∃ name, (source = some name ∨ target = some name) ∧
          name ∉ m.namespaces ∧ ∀ frames,
            m.tableWithin frames source target = .error (.namespaceNotFound name m.namespaces)) ∨
        ∃ s t, m.tiers source target = .ok (s, t) ∧ ∀ frames,
          (m.depthBetween s t ≤ frames ∧
            m.tableWithin frames source target = .ok (m.tableBetween s t)) ∨
          (frames < m.depthBetween s t ∧
            m.tableWithin frames source target = .error .stackFull ∧
            ∃ c ∈ m.classes.values, ∃ name, some name ∈ c.names ∧ frames ≤ name.count '$') := by
  obtain ⟨m, hread, hm⟩ | ⟨f, hread, g, rfl⟩ := (ends_reader h text).ok_or_error
  · refine .inr ⟨m, hread, hm, fun source target => ?_⟩
    have hne : m.namespaces ≠ [] :=
      List.ne_nil_of_length_pos (Nat.lt_of_lt_of_le Nat.two_pos hm.two_le)
    have htable := fun frames => tableWithin_eq hne frames source target
    obtain ⟨⟨s, t⟩, htiers, -⟩ | ⟨f, htiers, htiered, name, hname, hnot, rfl⟩ :=
      (ends_tiers m source target).ok_or_error
    · refine .inr ⟨s, t, htiers, fun frames => ?_⟩
      rw [htable frames, htiers]
      show _ ∧ m.tableBetweenWithin frames s t = _ ∨ _ ∧ m.tableBetweenWithin frames s t = _ ∧ _
      unfold tableBetweenWithin checkDepth
      by_cases hdepth : m.depthBetween s t ≤ frames
      · rw [if_pos hdepth]
        exact .inl ⟨hdepth, rfl⟩
      · rw [if_neg hdepth]
        refine .inr ⟨Nat.lt_of_not_le hdepth, rfl, ?_⟩
        by_contra hnone
        refine hdepth (hm.depthBetween_le (fun c hc name hname => ?_) s t)
        exact Nat.lt_of_not_le fun hle => hnone ⟨c, hc, name, hname, hle⟩
    · refine .inl ⟨htiered, name, hname, hnot, fun frames => ?_⟩
      rw [htable frames, htiers]
      rfl
  · exact .inl ⟨g, hread⟩

/-- A member row comes before any row of its class, and a class lacks its name in a tier. -/
def tornText : Text := "v1\ta\tb\tc\nMETHOD\tp/C\t(Lp/D;)V\tm\t\tn\nCLASS\tp/D\t\tq/D\n".toList

theorem refused_or_formed_tornText :
    reader? .tiny1 = some ofTiny1 ∧ (ofTiny1 tornText).toOption.isSome = true ∧
      ((∃ g, ofTiny1 tornText = .error (.format g)) ∨
        ∃ m, ofTiny1 tornText = .ok m ∧ m.Formed ∧ ∀ source target,
          (m.isTiered = true ∧ ∃ name, (source = some name ∨ target = some name) ∧
            name ∉ m.namespaces ∧ ∀ frames,
              m.tableWithin frames source target =
                .error (.namespaceNotFound name m.namespaces)) ∨
          ∃ s t, m.tiers source target = .ok (s, t) ∧ ∀ frames,
            (m.depthBetween s t ≤ frames ∧
              m.tableWithin frames source target = .ok (m.tableBetween s t)) ∨
            (frames < m.depthBetween s t ∧
              m.tableWithin frames source target = .error .stackFull ∧
              ∃ c ∈ m.classes.values, ∃ name, some name ∈ c.names ∧ frames ≤ name.count '$')) :=
  ⟨rfl, by decide +kernel, refused_or_formed (show reader? .tiny1 = some ofTiny1 from rfl) tornText⟩

/-! ## A row that is too deep -/

/-- A class with a number of dollar signs in its name. -/
def deepOwner (n : Nat) : Text := 'a' :: List.replicate n '$'

/-- A text of one row, for a field of this class. -/
def deepText (n : Nat) : Text := Text.ofLines [Text.joinWith ' ' [deepOwner n, ['f'], ['g']]]

/-- The mapping of this text: a class that is mentioned, with one field. -/
def deepMapping (n : Nat) : Mapping :=
  (ofNamespaces .csrg twoTiers).addField (deepOwner n) ⟨twoNames ['f'] ['g'], none, none⟩

theorem ofCsrg_deepText (n : Nat) : ofCsrg (deepText n) = .ok (deepMapping n) := by
  have howner : Text.IsLead (deepOwner n) := by
    refine ⟨⟨List.cons_ne_nil _ _, ?_⟩, show some 'a' ≠ some '#' by decide⟩
    rw [deepOwner, List.forall_mem_cons]
    refine ⟨by decide, fun c hc => ?_⟩
    rw [List.eq_of_mem_replicate hc]
    decide
  have hwords : ∀ w ∈ [deepOwner n, ['f'], ['g']], Text.IsField w := by
    rw [List.forall_mem_cons]
    exact ⟨howner.isField, by decide⟩
  have hrow := Text.isRow_joinWith (c := ' ') howner
    (fun v hv => (hwords v (List.mem_cons_of_mem _ hv)).unbroken) (by decide)
  have hlines : (deepText n).contentLines = [(1, Text.joinWith ' ' [deepOwner n, ['f'], ['g']])] := by
    rw [deepText, Text.contentLines_ofLines (by simpa using hrow.unbroken)]
    show (if _ then _ else _) = _
    rw [if_pos hrow.content]
    rfl
  rw [ofCsrg, hlines]
  show csrgStep _ _ >>= _ = _
  rw [csrgStep, Text.fields_joinWith hwords]
  rfl

theorem toList_deepMapping (n : Nat) :
    (deepMapping n).classes.toList =
      [(deepOwner n, ⟨[some (deepOwner n), none], false, none,
        [⟨twoNames ['f'] ['g'], none, none⟩], []⟩)] := by
  simp [deepMapping, addField, onOwner, withOwner, ofNamespaces, mentioned, twoTiers,
    OrderedMap.contains, OrderedMap.modify, OrderedMap.insert, OrderedMap.put, OrderedMap.empty,
    OrderedMap.get?, OrderedMap.find?]

theorem depthBetween_deepMapping (n : Nat) : (deepMapping n).depthBetween 0 1 = n + 1 := by
  have hhead : (deepOwner n).head? ≠ some '$' := show some 'a' ≠ some '$' by decide
  have hdepth : nestingDepth (OrderedMap.empty : OrderedMap Text Text).get? (deepOwner n) = n + 1 := by
    rw [nestingDepth_of_none (OrderedMap.get?_empty ·) hhead, deepOwner,
      List.count_cons_of_ne (by decide), List.count_replicate_self]
  have hnames : (deepMapping n).tierNames 0 1 = ⟨.empty, .empty⟩ := by
    simp [tierNames, classRenames, toList_deepMapping]
    rfl
  unfold depthBetween
  rw [OrderedMap.values, toList_deepMapping, hnames]
  show max (max 0 0) (max (max 0 (nestingDepth _ (deepOwner n))) 0) = n + 1
  rw [hdepth]
  omega

theorem tableWithin_deepMapping (frames : Nat) :
    (deepMapping frames).tableWithin frames none none = .error .stackFull := by
  show tableBetweenWithin frames _ 0 1 = _
  rw [tableBetweenWithin, depthBetween_deepMapping, checkDepth,
    if_neg (Nat.not_le.2 (Nat.lt_succ_self frames))]
  rfl

/-- No stack is so deep that every mapping that is read has a table or lacks a namespace. -/
theorem no_frames_enough :
    ¬ ∃ frames, ∀ text m, ofCsrg text = .ok m → ∀ source target,
      (∃ t, m.tableWithin frames source target = .ok t) ∨
      ∃ name available,
        m.tableWithin frames source target = .error (.namespaceNotFound name available) := by
  rintro ⟨frames, h⟩
  have hdeep := h _ _ (ofCsrg_deepText frames) none none
  rw [tableWithin_deepMapping] at hdeep
  obtain ⟨t, ht⟩ | ⟨name, available, hname⟩ := hdeep
  · cases ht
  · cases hname

end Mapping

end Renaming
