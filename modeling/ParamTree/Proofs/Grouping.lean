import ParamTree.Proofs.Flags
import ParamTree.Report.Help

/-!
# Groups on a help page

A help page starts a section wherever the group changes from one flag to the next
(`flagLines_divided`), so a group whose flags were scattered would get several headings. It
gets one (`names_nodup`): a flag table follows the properties of the root, each with all that
stands below it, so the flags of a group stand together (`candidates_together`), and they
still do when the flags of higher levels are left out.
-/

namespace ParamTree

/-- Do the flags of each group stand together? Whatever stands between two flags of a group
is of that group. -/
def GroupsTogether (flags : List Flag) : Prop :=
  ∀ f g h name, [f, g, h].Sublist flags → f.group = some name → h.group = some name →
    g.group = some name

theorem GroupsTogether.sublist {flags shown : List Flag} (together : GroupsTogether flags)
    (h : shown.Sublist flags) : GroupsTogether shown :=
  fun f g k name sub => together f g k name (sub.trans h)

namespace Flag

/-- The flags of one property of the root have one group: the property if it is an object,
and none if the flag is its own. -/
theorem group_ofProperty {p : String × Node} (distinct : p.2.Every Node.DistinctKeys) {f : Flag}
    (hf : f ∈ ofProperty [] "" p) : f.group = if p.2.isObject then some p.1 else none := by
  obtain ⟨key, child⟩ := p
  rcases child.leaf_or_object with hleaf | ⟨a, below, rfl⟩
  · rw [ofProperty_leaf hleaf, List.mem_singleton] at hf
    simp [hf, hleaf, group, ofNode]
  · obtain ⟨names, leaf, name, filled, rfl, -, -⟩ := candidates_leaf distinct hf
    cases names with
    | nil => exact absurd rfl filled
    | cons second more => rfl

theorem key_of_group {properties : Properties}
    (distinct : ∀ p ∈ properties, p.2.Every Node.DistinctKeys) {f : Flag}
    (hf : f ∈ properties.flatMap (ofProperty [] "")) {name : String} (h : f.group = some name) :
    name ∈ properties.map Prod.fst := by
  obtain ⟨p, hp, hf⟩ := List.mem_flatMap.mp hf
  rw [group_ofProperty (distinct p hp) hf] at h
  split at h
  · cases h
    exact List.mem_map_of_mem hp
  · cases h

theorem flatMap_together {properties : Properties} (keys : (properties.map Prod.fst).Nodup)
    (distinct : ∀ p ∈ properties, p.2.Every Node.DistinctKeys) :
    GroupsTogether (properties.flatMap (ofProperty [] "")) := by
  induction properties with
  | nil =>
      intro f g h name sub
      cases sub
  | cons p rest ih =>
      rw [List.map_cons, List.nodup_cons] at keys
      obtain ⟨first, others⟩ := List.forall_mem_cons.mp distinct
      intro f g h name sub hf hh
      rw [List.flatMap_cons, List.sublist_append_iff] at sub
      obtain ⟨before, after, split, hbefore, hafter⟩ := sub
      -- how many of the three flags stand below the first property
      rcases before with _ | ⟨f', _ | ⟨g', more⟩⟩
      · obtain rfl : [f, g, h] = after := split
        exact ih keys.2 others f g h name hafter hf hh
      · obtain ⟨rfl, rfl⟩ : f = f' ∧ [g, h] = after := by simpa using split
        -- the last of them is of the group of the first property and stands below another
        have own := group_ofProperty first (hbefore.subset List.mem_cons_self)
        rw [hf] at own
        have same : name = p.1 := by
          split at own
          · exact Option.some.inj own
          · cases own
        have later := key_of_group others (hafter.subset (List.mem_cons_of_mem g List.mem_cons_self)) hh
        exact absurd (same ▸ later) keys.1
      · obtain ⟨rfl, rfl, -⟩ : f = f' ∧ g = g' ∧ [h] = more ++ after := by simpa using split
        rw [group_ofProperty first (hbefore.subset (List.mem_cons_of_mem f List.mem_cons_self)),
          ← group_ofProperty first (hbefore.subset List.mem_cons_self), hf]

/-- In the table of a tree the flags of each group stand together. -/
theorem candidates_together {root : Node} (distinct : root.Every Node.DistinctKeys) :
    GroupsTogether (candidates [] "" root.properties) := by
  rw [candidates_eq_flatMap]
  cases root with
  | object a properties =>
      exact flatMap_together distinct.self fun p hp => distinct.property hp
  | array | union | scalar =>
      intro f g h name sub
      cases sub

end Flag

namespace Report

/-! ## Sections -/

/-- A heading of a help page and the flags of the rows below it, up to the next heading. -/
structure Section where
  /-- The property of the root that the heading stands for; none for the root itself. -/
  group : Option String
  flags : List Flag

/-- The lines of a section. -/
def Section.lines (schema : Schema) (part : Section) : List HelpLine :=
  .heading (groupHeading schema part.group) :: part.flags.map flagRow

/-- Has the section rows, all of flags of its group? -/
def Section.Uniform (part : Section) : Prop :=
  part.flags ≠ [] ∧ ∀ f ∈ part.flags, f.group = part.group

theorem Section.Uniform.exists_flag {part : Section} (h : part.Uniform) :
    ∃ f ∈ part.flags, f.group = part.group := by
  obtain ⟨f, hf⟩ := List.exists_mem_of_ne_nil _ h.1
  exact ⟨f, hf, h.2 f hf⟩

/-- How the rows of flags fall into those before any heading, which go on with the group
`current`, and sections of one group each, where no two neighbours are of the same group. -/
structure Divided (current : Option String) (flags front : List Flag) (sections : List Section) :
    Prop where
  order : front ++ sections.flatMap Section.flags = flags
  front : ∀ f ∈ front, f.group = current
  own : ∀ part ∈ sections, part.Uniform
  turns : (current :: sections.map Section.group).IsChain (· ≠ ·)

theorem flagLines_divided (schema : Schema) (current : Option String) (flags : List Flag) :
    ∃ front sections, Divided current flags front sections ∧
      flagLines schema current flags =
        front.map flagRow ++ sections.flatMap (Section.lines schema) := by
  induction flags generalizing current with
  | nil => exact ⟨[], [], ⟨rfl, nofun, nofun, .singleton _⟩, rfl⟩
  | cons f rest ih =>
      rw [flagLines]
      split
      · next same =>
        obtain ⟨front, sections, divided, lines⟩ := ih current
        refine ⟨f :: front, sections, ?_, by rw [lines]; rfl⟩
        exact ⟨by rw [List.cons_append, divided.order],
          List.forall_mem_cons.mpr ⟨same, divided.front⟩, divided.own, divided.turns⟩
      · next other =>
        -- the rows that go on with the new group belong to its section
        obtain ⟨front, sections, divided, lines⟩ := ih f.group
        refine ⟨[], ⟨f.group, f :: front⟩ :: sections, ?_, by rw [lines]; rfl⟩
        refine ⟨by simp [← divided.order], nofun, ?_, ?_⟩
        · refine List.forall_mem_cons.mpr ⟨⟨List.cons_ne_nil _ _, ?_⟩, divided.own⟩
          exact List.forall_mem_cons.mpr ⟨rfl, divided.front⟩
        · exact divided.turns.cons_cons fun same => other same.symm

variable {current : Option String} {flags front : List Flag} {sections : List Section}

/-- Where the flags of a group stand together no two sections are of one group. -/
theorem names_nodup (own : ∀ part ∈ sections, part.Uniform)
    (turns : (sections.map Section.group).IsChain (· ≠ ·))
    (together : GroupsTogether (sections.flatMap Section.flags)) :
    (sections.filterMap Section.group).Nodup := by
  induction sections with
  | nil => exact List.nodup_nil
  | cons part rest ih =>
      have later := ih (List.forall_mem_cons.mp own).2 turns.tail
        (together.sublist (List.sublist_append_right _ _))
      rw [List.filterMap_cons]
      cases hname : part.group with
      | none => exact later
      | some name =>
          refine List.nodup_cons.mpr ⟨fun again => ?_, later⟩
          obtain ⟨other, hother, hagain⟩ := List.mem_filterMap.mp again
          cases rest with
          | nil => cases hother
          | cons next more =>
              -- the section between the two is of another group
              have apart : next.group ≠ some name := by
                intro same
                rw [List.map_cons, List.map_cons, hname, same] at turns
                exact turns.rel rfl
              have hmore : other ∈ more := by
                rcases List.mem_cons.mp hother with rfl | hmore
                · exact absurd hagain apart
                · exact hmore
              obtain ⟨f, hf, ofPart⟩ := (own part List.mem_cons_self).exists_flag
              obtain ⟨g, hg, ofNext⟩ := (own next (by simp)).exists_flag
              obtain ⟨h, hh, ofOther⟩ := (own other (by simp [hmore])).exists_flag
              have sub : ([f] ++ ([g] ++ [h])).Sublist
                  ((part :: next :: more).flatMap Section.flags) := by
                rw [List.flatMap_cons, List.flatMap_cons]
                refine .append (List.singleton_sublist.mpr hf)
                  (.append (List.singleton_sublist.mpr hg) (List.singleton_sublist.mpr ?_))
                exact List.mem_flatMap_of_mem hmore hh
              have between := together f g h name sub (ofPart.trans hname) (ofOther.trans hagain)
              exact apart (ofNext.symm.trans between)

/-- Flags of other groups are none of this group. -/
theorem filter_group_eq_nil {name : String}
    (own : ∀ part ∈ sections, part.Uniform)
    (others : ∀ part ∈ sections, part.group ≠ some name) :
    (sections.flatMap Section.flags).filter (·.group = some name) = [] := by
  rw [List.filter_eq_nil_iff]
  intro f hf
  obtain ⟨part, hpart, hf⟩ := List.mem_flatMap.mp hf
  rw [decide_eq_true_eq, (own part hpart).2 f hf]
  exact others part hpart

/-- The section of a group is the only one, and holds all flags of the group. -/
theorem section_of_group
    (own : ∀ part ∈ sections, part.Uniform)
    (once : (sections.filterMap Section.group).Nodup) {part : Section} (hpart : part ∈ sections)
    {name : String} (hname : part.group = some name) :
    sections.filter (·.group = some name) =
      [⟨some name, (sections.flatMap Section.flags).filter (·.group = some name)⟩] := by
  obtain ⟨before, after, rfl⟩ := List.append_of_mem hpart
  rw [List.filterMap_append, List.filterMap_cons_some hname, List.nodup_append] at once
  obtain ⟨-, distinct, apart⟩ := once
  have earlier : ∀ other ∈ before, other.group ≠ some name := by
    intro other hother same
    exact apart name (List.mem_filterMap.mpr ⟨other, hother, same⟩) name List.mem_cons_self rfl
  have later : ∀ other ∈ after, other.group ≠ some name := by
    intro other hother same
    exact (List.nodup_cons.mp distinct).1 (List.mem_filterMap.mpr ⟨other, hother, same⟩)
  have mine : part.flags.filter (·.group = some name) = part.flags := by
    rw [List.filter_eq_self]
    intro f hf
    rw [decide_eq_true_eq, (own part hpart).2 f hf, hname]
  have flags : ((before ++ part :: after).flatMap Section.flags).filter (·.group = some name) =
      part.flags := by
    rw [List.flatMap_append, List.flatMap_cons, List.filter_append, List.filter_append, mine,
      filter_group_eq_nil (fun p hp => own p (by simp [hp])) earlier,
      filter_group_eq_nil (fun p hp => own p (by simp [hp])) later]
    simp
  have only : (before ++ part :: after).filter (·.group = some name) = [part] := by
    have noneBefore : before.filter (·.group = some name) = [] := by simpa using earlier
    have noneAfter : after.filter (·.group = some name) = [] := by simpa using later
    rw [List.filter_append, noneBefore, List.filter_cons_of_pos (by simpa using hname), noneAfter]
    rfl
  rw [only, flags, ← hname]

/-! ## The lines of a page -/

/-- The lines of a help page are the rows of the flags up to the level, in the order of the
schema: first those without a heading, of the root, then sections of one group each. A property
of the root has at most one section, with the rows of all its flags. The help request is last. -/
theorem helpLines_grouped {s : Schema} (built : s.Built) (level : Nat) :
    let shown := s.flags.flags.filter (·.helpLevel ≤ level)
    ∃ (front : List Flag) (sections : List Section),
      helpLines s level = front.map flagRow ++ sections.flatMap (Section.lines s) ++
        [.heading "Display help", helpRow s.flags.maxHelpLevel] ∧
      front ++ sections.flatMap Section.flags = shown ∧
      (∀ f ∈ front, f.group = none) ∧ (∀ part ∈ sections, part.Uniform) ∧
      ∀ name, (∃ f ∈ shown, f.group = some name) →
        sections.filter (·.group = some name) = [⟨some name, shown.filter (·.group = some name)⟩] := by
  intro shown
  obtain ⟨front, sections, divided, lines⟩ := flagLines_divided s none shown
  have together : GroupsTogether shown := by
    have all := Flag.candidates_together built.distinct
    rw [← built.flags_eq] at all
    exact all.sublist List.filter_sublist
  have below : (sections.flatMap Section.flags).Sublist shown := by
    rw [← divided.order]
    exact List.sublist_append_right _ _
  have once := names_nodup divided.own divided.turns.tail (together.sublist below)
  refine ⟨front, sections, ?_, divided.order, divided.front, divided.own, ?_⟩
  · rw [helpLines, ← lines]
    rfl
  · rintro name ⟨f, hf, hname⟩
    rw [← divided.order, List.mem_append, List.mem_flatMap] at hf
    rcases hf with hfront | ⟨part, hpart, hmine⟩
    · rw [divided.front f hfront] at hname
      cases hname
    · have own := ((divided.own part hpart).2 f hmine).symm.trans hname
      have noneInFront : front.filter (·.group = some name) = [] := by
        rw [List.filter_eq_nil_iff]
        intro g hg
        simp [divided.front g hg]
      rw [section_of_group divided.own once hpart own, ← divided.order, List.filter_append,
        noneInFront, List.nil_append]

end Report

end ParamTree
