import ParamTree.Proofs.Reading
import ParamTree.Proofs.Rebuilding

/-!
# One property of the root

`Schema.only` cuts a schema down to one property of its root and the flags below it, and
`Schema.tokensUnder` a token list to the segments of these flags. The small schema is that
of the document with one property declared (`Built.only`), and what it reads from its own
segments is what the whole schema reads for its flags (`read_tokensUnder`).
-/

namespace ParamTree

open FlagInput FlagTable

/-! ## Cutting down -/

/-- The object with one of its properties. -/
def Node.only (key : String) : Node → Node
  | .object a properties => .object a (properties.filter (·.1 == key))
  | leaf => leaf

namespace Schema

/-- The schema with one property of its root and the flags below that. -/
def only (s : Schema) (key : String) : Schema :=
  { s with root := s.root.only key, flags := ⟨s.flags.flags.filter (·.path.head? == some key)⟩ }

/-- The segments of the flags below a property of the root, in order. -/
def tokensUnder (s : Schema) (key : String) (tokens : List String) : List String :=
  ((cut s.flags.isTag tokens).2.filter fun run => (s.only key).flags.isTag run.tag).flatMap tokensOf

/-- The keywords of a document with one of the properties that it declares. -/
def onlyProperty (key : String) (own : Entries) : Entries :=
  match own.lookup "properties" with
  | some (.object declared) => own.put "properties" (.object (declared.filter (·.1 == key)))
  | _ => own

end Schema

/-! ## The document with one property -/

namespace Value

theorem wellFormedEntries_iff {entries : Entries} :
    WellFormedEntries entries ↔ ∀ entry ∈ entries, entry.2.WellFormed := by
  induction entries with
  | nil => simp [WellFormedEntries]
  | cons entry rest ih =>
      obtain ⟨key, v⟩ := entry
      rw [WellFormedEntries, ih, List.forall_mem_cons]

theorem mem_put {key : String} {value : Value} {entries : Entries} {entry : String × Value}
    (h : entry ∈ Entries.put key value entries) : entry.2 = value ∨ entry ∈ entries := by
  induction entries with
  | nil =>
      rw [List.mem_singleton.mp h]
      exact .inl rfl
  | cons first rest ih =>
      obtain ⟨k, v⟩ := first
      unfold Entries.put at h
      split at h
      · rcases List.mem_cons.mp h with rfl | h
        · exact .inl rfl
        · exact .inr (List.mem_cons_of_mem _ h)
      · rcases List.mem_cons.mp h with rfl | h
        · exact .inr List.mem_cons_self
        · exact (ih h).imp_right (List.mem_cons_of_mem _)

theorem wellFormed_put {key : String} {value : Value} {entries : Entries}
    (h : (Value.object entries).WellFormed) (hv : value.WellFormed) :
    (Value.object (entries.put key value)).WellFormed := by
  refine ⟨Entries.nodup_put h.1, wellFormedEntries_iff.mpr fun entry hentry => ?_⟩
  rcases mem_put hentry with heq | hmem
  · exact heq ▸ hv
  · exact wellFormedEntries_iff.mp h.2 entry hmem

theorem wellFormed_filter {entries : Entries} (h : (Value.object entries).WellFormed)
    (keep : String × Value → Bool) : (Value.object (entries.filter keep)).WellFormed :=
  ⟨h.1.sublist (List.filter_sublist.map _), wellFormedEntries_iff.mpr fun entry hentry =>
    wellFormedEntries_iff.mp h.2 entry (List.mem_filter.mp hentry).1⟩

end Value

namespace Schema

variable {path : ParamPath} {inherited : Inherited} {own : Entries} {key : String}

theorem onlyProperty_sameKeywords (key : String) (own : Entries) :
    SameKeywords own (onlyProperty key own) := by
  unfold onlyProperty
  split
  · next declared h =>
    constructor
    · intro keyword hp hi
      rw [Entries.lookup_put, if_neg hp]
    · rw [Entries.lookup_put, if_pos rfl, h]
      rfl
    · rw [Entries.lookup_put, if_neg (by decide)]
  · exact ⟨fun _ _ _ => rfl, rfl, rfl⟩

theorem onlyProperty_wellFormed (h : (Value.object own).WellFormed) :
    (Value.object (onlyProperty key own)).WellFormed := by
  unfold onlyProperty
  split
  · next declared hdeclared =>
    exact Value.wellFormed_put h (Value.wellFormed_filter (Value.wellFormed_of_lookup h hdeclared) _)
  · exact h

theorem buildProperties_filter {declared : Entries} {ps : Properties} (keep : String → Bool)
    (h : buildProperties path inherited declared = .ok ps) :
    buildProperties path inherited (declared.filter (keep ·.1)) = .ok (ps.filter (keep ·.1)) := by
  induction declared generalizing ps with
  | nil =>
      rw [buildProperties] at h
      cases h
      rw [List.filter_nil, buildProperties, List.filter_nil]
  | cons entry rest ih =>
      obtain ⟨k, v⟩ := entry
      rw [buildProperties] at h
      obtain ⟨node, hnode, h⟩ := except_bind_ok.mp h
      obtain ⟨nodes, hnodes, h⟩ := except_bind_ok.mp h
      obtain rfl := except_pure_ok.mp h
      rw [List.filter_cons, List.filter_cons]
      by_cases hk : keep k = true
      · rw [if_pos hk, if_pos hk, buildProperties, hnode, ih hnodes]
        rfl
      · rw [if_neg hk, if_neg hk]
        exact ih hnodes

theorem declaredProperties_only {ps : Properties}
    (h : declaredProperties path inherited own = .ok ps) :
    declaredProperties path inherited (onlyProperty key own) = .ok (ps.filter (·.1 == key)) := by
  unfold declaredProperties at h
  split at h
  · next hnone =>
    cases h
    simp only [onlyProperty, declaredProperties, hnone, List.filter_nil]
  · next declared hdeclared =>
    simp only [onlyProperty, declaredProperties, hdeclared, Entries.lookup_put, if_true]
    exact buildProperties_filter (· == key) h
  · cases h

/-- The builder makes the small object from the document with one property. -/
theorem buildNode_only {root : Node} (hobject : root.isObject = true)
    (h : buildNode path inherited (.object own) = .ok root) :
    buildNode path inherited (.object (onlyProperty key own)) = .ok (root.only key) := by
  have sameItems : ∀ here, declaredItems path here (onlyProperty key own) =
      declaredItems path here own := by
    intro here
    have items : (onlyProperty key own).lookup "items" = own.lookup "items" := by
      unfold onlyProperty
      split
      · rw [Entries.lookup_put, if_neg (by decide)]
      · rfl
    unfold declaredItems
    rw [items]
  obtain ⟨here, kind, kind', a, choices, -, rfl, hbuild, related⟩ :=
    buildNode_related path (onlyProperty_sameKeywords key own)
      (P := fun _ kind kind' => ∀ ps, kind = .object ps → kind' = .object (ps.filter (·.1 == key)))
      (fun here v vs ns _ hns => ⟨ns, hns, nofun⟩)
      (fun here ps hps => ⟨_, declaredProperties_only hps, by rintro _ ⟨⟩; rfl⟩)
      (fun here n hn => ⟨n, (sameItems here).trans hn, nofun⟩)
      (fun here ns ns' _ => nofun) (fun here type => nofun) h
  cases kind with
  | object ps =>
      obtain rfl := related ps rfl
      exact hbuild
  | array | union | scalar => cases hobject

end Schema

/-! ## Its flags -/

namespace Flag

/-- The flags below one property of the root are those whose path starts with it. -/
theorem candidates_only {root : Node} (distinct : root.Every Node.DistinctKeys) (key : String) :
    candidates [] "" (root.only key).properties =
      (candidates [] "" root.properties).filter (·.path.head? == some key) := by
  cases root with
  | object a properties =>
      have heads : ∀ p ∈ properties, ∀ f ∈ ofProperty [] "" p, f.path.head? = some p.1 := by
        rintro ⟨k, child⟩ hmem f hf
        rcases child.leaf_or_object with hleaf | ⟨b, below, rfl⟩
        · rw [ofProperty_leaf hleaf, List.mem_singleton] at hf
          rw [hf]
          rfl
        · obtain ⟨names, leaf, name, -, rfl, -, -⟩ := candidates_leaf (distinct.property hmem) hf
          rfl
      rw [Node.only, Node.properties, Node.properties, candidates_eq_flatMap, candidates_eq_flatMap]
      clear distinct
      induction properties with
      | nil => rfl
      | cons p rest ih =>
          have ih := ih fun q hq => heads q (List.mem_cons_of_mem _ hq)
          have own := heads p List.mem_cons_self
          rw [List.flatMap_cons, List.filter_append, ← ih, List.filter_cons]
          by_cases hkey : p.1 = key
          · have all : (ofProperty [] "" p).filter (·.path.head? == some key) = ofProperty [] "" p := by
              refine List.filter_eq_self.mpr fun f hf => ?_
              rw [own f hf, hkey, beq_self_eq_true]
            rw [if_pos (beq_iff_eq.mpr hkey), List.flatMap_cons, all]
          · have none : (ofProperty [] "" p).filter (·.path.head? == some key) = [] := by
              refine List.filter_eq_nil_iff.mpr fun f hf => ?_
              rw [own f hf, beq_iff_eq, Option.some.injEq]
              exact hkey
            rw [if_neg (mt beq_iff_eq.mp hkey), none, List.nil_append]
  | array | union | scalar =>
      rw [Node.only, Node.properties, candidates_nil, List.filter_nil]
      all_goals simp

end Flag

namespace FlagTable

theorem Admissible.filter {flags : List Flag} (h : Admissible flags) (keep : Flag → Bool) :
    Admissible (flags.filter keep) where
  name f hf := h.name f (List.mem_filter.mp hf).1
  further f hf := h.further f (List.mem_filter.mp hf).1
  help f hf := h.help f (List.mem_filter.mp hf).1
  distinct := h.distinct.sublist (List.filter_sublist.flatMap _)

end FlagTable

namespace Schema

variable {s : Schema} {key : String} {tokens : List String} {input : FlagInput}

theorem Built.derive_only (h : s.Built) (key : String) :
    FlagTable.derive (s.only key).root = .ok (s.only key).flags := by
  have listed : Flag.candidates [] "" (s.only key).root.properties = (s.only key).flags.flags := by
    show Flag.candidates [] "" (s.root.only key).properties = _
    rw [Flag.candidates_only h.distinct, ← h.flags_eq]
    rfl
  have admissible : Admissible (s.only key).flags.flags := h.admissible.filter _
  obtain ⟨t, ht⟩ := (insertAll_ok_iff admissible_nil).mpr admissible
  have same : t = (s.only key).flags := congrArg FlagTable.mk (insertAll_flags ht)
  rw [FlagTable.derive, listed]
  exact ht.trans (congrArg Except.ok same)

/-- A property by itself makes a schema: that of the document with the property alone. -/
theorem Built.only (h : s.Built) (key : String) : (s.only key).Built := by
  have derived := h.derive_only key
  obtain ⟨document, wf, h⟩ := h
  obtain ⟨own, rfl⟩ := object_of_buildNode (ofValue_ok h).1
  obtain ⟨hroot, hobject, -, htitle, hdescription⟩ := ofValue_object_iff.mp h
  have same := (onlyProperty_sameKeywords key own).parts.attributes
  refine ⟨.object (onlyProperty key own), onlyProperty_wellFormed wf, ofValue_object_iff.mpr ?_⟩
  refine ⟨buildNode_only hobject hroot, ?_, derived, ?_, ?_⟩
  · show (s.root.only key).isObject = true
    cases hn : s.root with
    | object a properties => rfl
    | array | union | scalar => rw [hn] at hobject; cases hobject
  · exact same.textOf (by decide) htitle
  · exact same.textOf (by decide) hdescription

/-! ## Its tokens -/

theorem mem_only_flags {f : Flag} :
    f ∈ (s.only key).flags.flags ↔ f ∈ s.flags.flags ∧ f.path.head? = some key := by
  simp [only]

end Schema

namespace FlagInput

/-- The last run of a flag is still there when runs of other flags are left out. -/
theorem lastRun_filter {f : Flag} {keep : TagRun → Bool} {runs : List TagRun}
    (h : ∀ run ∈ runs, run.tag ∈ f.tags → keep run = true) :
    lastRun f (runs.filter keep) = lastRun f runs := by
  induction runs with
  | nil => rfl
  | cons run rest ih =>
      have ih := ih fun r hr => h r (List.mem_cons_of_mem _ hr)
      rw [List.filter_cons]
      by_cases hkeep : keep run = true
      · rw [if_pos hkeep, lastRun_cons, lastRun_cons, ih]
      · have other : run.tag ∉ f.tags := fun htag => hkeep (h run List.mem_cons_self htag)
        rw [if_neg hkeep, lastRun_cons, ih, if_neg other, Option.or_none]

theorem read_get?_none {t : FlagTable} {tokens : List String} {input : FlagInput}
    (h : read t tokens = .ok input) {path : List String} (none : ∀ f ∈ t.flags, f.path ≠ path) :
    input.get? path = .none := by
  cases hget : input.get? path with
  | none => rfl
  | some given =>
      obtain ⟨f, hf, hpath⟩ := read_paths h _ (mem_of_lookup hget)
      exact absurd hpath.symm (none f hf)

end FlagInput

namespace Schema

variable {s : Schema} {key : String} {tokens : List String} {input : FlagInput}

/-- The runs of the flags below a property. -/
abbrev runsUnder (s : Schema) (key : String) (runs : List TagRun) : List TagRun :=
  runs.filter fun run => (s.only key).flags.isTag run.tag

/-- What is left of the segments are the segments of what is left of the tokens. -/
theorem segments_under {runs : List TagRun} (segments : s.flags.Segments tokens runs) (key : String) :
    (s.only key).flags.Segments (s.tokensUnder key tokens) (s.runsUnder key runs) := by
  refine ⟨?_, fun run hrun => owned_iff.mpr (List.mem_filter.mp hrun).2, ?_⟩
  · rw [tokensUnder, segments_iff.mp segments]
  · rintro run hrun v hv ⟨f, hf, htag⟩
    exact segments.value run (List.mem_filter.mp hrun).1 v hv ⟨f, (mem_only_flags.mp hf).1, htag⟩

/-- A flag below a property is given the same by the runs below that property. -/
theorem readRuns_under (built : s.Built) {runs : List TagRun} {part : FlagInput}
    (whole : readRuns s.flags {} runs = .ok input)
    (small : readRuns (s.only key).flags {} (s.runsUnder key runs) = .ok part) {f : Flag}
    (hf : f ∈ (s.only key).flags.flags) : part.get? f.path = input.get? f.path := by
  have more := readRuns_get? built.unambiguous whole (mem_only_flags.mp hf).1
  have less := readRuns_get? (built.only key).unambiguous small hf
  -- the runs of the flag are all among those that are left
  rw [lastRun_filter fun run _ htag => owned_iff.mp ⟨f, hf, htag⟩] at less
  cases hlast : lastRun f runs with
  | none =>
      rw [hlast] at more less
      rw [show part.get? f.path = _ from less, show input.get? f.path = _ from more]
  | some run =>
      rw [hlast] at more less
      obtain ⟨given, hgiven, hget⟩ := more
      obtain ⟨given', hgiven', hget'⟩ := less
      rw [hgiven] at hgiven'
      cases hgiven'
      rw [hget, hget']

/-- Where all tokens can be read, so can the segments of a property by themselves, and they
give to every path below the property what all tokens give to it. -/
theorem read_tokensUnder (built : s.Built) (reads : read s.flags tokens = .ok input) (key : String) :
    ∃ part, read (s.only key).flags (s.tokensUnder key tokens) = .ok part ∧
      ∀ names, part.get? (key :: names) = input.get? (key :: names) := by
  rcases read_outcome built.unambiguous tokens with ⟨runs, -, segments, good, -⟩ | ⟨e, -, herror⟩
  · have whole : readRuns s.flags {} runs = .ok input := (read_segments segments).symm.trans reads
    have below := segments_under segments key
    have short : ∀ run ∈ s.runsUnder key runs, ∀ f, ¬(s.only key).flags.Oversize f run := by
      rintro run hrun f ⟨hf, long⟩
      exact good run (List.mem_filter.mp hrun).1 f ⟨(mem_only_flags.mp hf).1, long⟩
    obtain ⟨part, small⟩ := readRuns_isOk (built.only key).unambiguous below.tag short {}
    have hread : read (s.only key).flags (s.tokensUnder key tokens) = .ok part :=
      (read_segments below).trans small
    refine ⟨part, hread, fun names => ?_⟩
    by_cases hflag : ∃ f ∈ s.flags.flags, f.path = key :: names
    · obtain ⟨f, hf, hpath⟩ := hflag
      have hf' : f ∈ (s.only key).flags.flags := mem_only_flags.mpr ⟨hf, by rw [hpath]; rfl⟩
      rw [← hpath]
      exact readRuns_under built whole small hf'
    · -- a path without a flag gets nothing from either
      rw [read_get?_none reads fun f hf hpath => hflag ⟨f, hf, hpath⟩,
        read_get?_none hread fun f hf hpath => hflag ⟨f, (mem_only_flags.mp hf).1, hpath⟩]
  · rw [reads] at herror
    cases herror

end Schema

end ParamTree
