import TexFormula.Dictionary.Standard
import TexFormula.Proofs.AliasChains
import TexFormula.Proofs.Outcome

/-!
# Checked lists of notations

Which lists of notations `Dictionary.ofList` accepts (`Resolvable`), and what the dictionary of an
accepted list finds: each name stands for the end of its chain of aliases, and at a trigger every
notation that can be read is found, an alias by the notation that it stands for (`Resolves`).
-/

namespace TexFormula.Dictionary

open Relation

variable {entries : List Notation} {d : Dictionary} {n m : Notation} {name target final : String}

/-! ### The list -/

/-- Every notation is complete, every alias stands for a notation, and no chain of aliases is a
circle. -/
structure Resolvable (entries : List Notation) : Prop where
  names : ∀ n ∈ entries, n.name ≠ ""
  triggers : ∀ n ∈ entries, n.trigger ≠ some ""
  closed : ∀ n ∈ entries, n.kind ≠ .matchfix ""
  targets : ∀ name target, PointsTo entries name target → ∃ n ∈ entries, n.name = target
  acyclic : ∀ name, ¬TransGen (PointsTo entries) name name

theorem checkEntry_eq_ok_iff : checkEntry n = .ok () ↔
    n.name ≠ "" ∧ n.trigger ≠ some "" ∧ n.kind ≠ .matchfix "" := by
  unfold checkEntry
  split
  · next h => exact iff_of_false nofun fun ⟨hname, _⟩ => hname h
  · next hname =>
    split
    · next h => exact iff_of_false nofun fun ⟨_, htrigger, _⟩ => htrigger h
    · next htrigger =>
      split
      · next h => exact iff_of_false nofun fun ⟨_, _, hkind⟩ => hkind h
      · next hkind => exact iff_of_true rfl ⟨hname, htrigger, hkind⟩

theorem ofList_eq_ok_iff : ofList entries = .ok d ↔
    (∀ n ∈ entries, checkEntry n = .ok ()) ∧
      resolveAliases entries = .ok d.aliases ∧ d.entries = entries := by
  unfold ofList
  rw [bind_eq_ok]
  constructor
  · rintro ⟨⟨⟩, hcheck, h⟩
    obtain ⟨aliases, haliases, heq⟩ := bind_eq_ok.mp h
    cases heq
    exact ⟨forM_eq_ok.mp hcheck, haliases, rfl⟩
  · rintro ⟨hcheck, haliases, rfl⟩
    exact ⟨(), forM_eq_ok.mpr hcheck, bind_eq_ok.mpr ⟨d.aliases, haliases, rfl⟩⟩

/-! ### Names -/

/-- The alias of a notation and the name it stands for in the end. -/
theorem eq_ok_of_mem_aliases {aliases : List (String × String)}
    (h : resolveAliases entries = .ok aliases) {name final : String}
    (hmem : (name, final) ∈ aliases) :
    ∃ n ∈ entries, n.name = name ∧
      resolve entries name ((target? entries name).getD name) = .ok final := by
  obtain ⟨n, hn, hpair⟩ := exists_mem_of_mem_mapM h hmem
  obtain ⟨final', hfinal, heq⟩ := bind_eq_ok.mp hpair
  cases heq
  exact ⟨n, (List.mem_filter.mp hn).1, rfl, hfinal⟩

theorem mem_names_of_resolve {final : String} (h : resolve entries name target = .ok final) :
    target ∈ entries.map (·.name) := by
  unfold resolve at h
  split at h
  · next hany =>
    obtain ⟨n, hn, heq⟩ := List.any_eq_true.mp hany
    exact List.mem_map.mpr ⟨n, hn, eq_of_beq heq⟩
  · cases h

/-- In a table that is accepted every alias stands for a notation. -/
theorem mem_names_of_resolveAliases {aliases : List (String × String)}
    (h : resolveAliases entries = .ok aliases) (htarget : target? entries name = some target) :
    target ∈ entries.map (·.name) := by
  obtain ⟨n, hn, hname⟩ := List.exists_of_findSome?_eq_some htarget
  split at hname
  · next heq =>
    have hmem : n ∈ entries.filter (·.aliasOf.isSome) :=
      List.mem_filter.mpr ⟨List.mem_reverse.mp hn, by rw [hname]; rfl⟩
    obtain ⟨_, -, hpair⟩ := exists_mem_of_mapM_eq_ok h hmem
    obtain ⟨_, hfinal, -⟩ := bind_eq_ok.mp hpair
    rw [heq, htarget] at hfinal
    exact mem_names_of_resolve hfinal
  · cases hname

/-- A name that no alias is filed under points nowhere, and every other one is filed with the end of
its chain. -/
theorem endsAt_lookup {aliases : List (String × String)}
    (h : resolveAliases entries = .ok aliases) (name : String) :
    EndsAt entries name ((aliases.lookup name).getD name) := by
  cases hlookup : aliases.lookup name with
  | none =>
    refine .refl fun target htarget => ?_
    obtain ⟨n, hlast, -⟩ := htarget
    have hn : n ∈ entries.filter (·.aliasOf.isSome) := List.mem_filter.mpr ⟨hlast.mem, hlast.prop.2⟩
    obtain ⟨pair, hpair, hfinal⟩ := exists_mem_of_mapM_eq_ok h hn
    obtain ⟨final, -, heq⟩ := bind_eq_ok.mp hfinal
    cases heq
    rw [List.lookup_eq_none_iff] at hlookup
    have hne := hlookup _ hpair
    rw [hlast.prop.1, bne_self_eq_false] at hne
    cases hne
  | some final =>
    have hmem : (name, final) ∈ aliases := by
      obtain ⟨l₁, l₂, heq, -⟩ := List.lookup_eq_some_iff.mp hlookup
      rw [heq]
      exact List.mem_append_right _ List.mem_cons_self
    obtain ⟨n, hn, hname, hfinal⟩ := eq_ok_of_mem_aliases h hmem
    have hends := endsAt_of_resolve (List.mem_map.mpr ⟨n, hn, hname⟩) hfinal
    cases htarget : target? entries name with
    | none => rwa [htarget] at hends
    | some target =>
      rw [htarget] at hends
      exact hends.head (target?_eq_some_iff.mp htarget)

theorem endsAt_canonicalName (h : ofList entries = .ok d) (name : String) :
    EndsAt entries name (d.canonicalName name) :=
  endsAt_lookup (ofList_eq_ok_iff.mp h).2.1 name

theorem canonicalName_of_endsAt (h : ofList entries = .ok d) (hends : EndsAt entries name final) :
    d.canonicalName name = final :=
  (endsAt_canonicalName h name).unique hends

theorem canonicalName_of_pointsTo (h : ofList entries = .ok d) (htarget : PointsTo entries name target) :
    d.canonicalName name = d.canonicalName target :=
  canonicalName_of_endsAt h ((endsAt_canonicalName h target).head htarget)

theorem canonicalName_canonicalName (h : ofList entries = .ok d) (name : String) :
    d.canonicalName (d.canonicalName name) = d.canonicalName name :=
  canonicalName_of_endsAt h (.refl (endsAt_canonicalName h name).2)

/-- In an accepted list every alias stands for a notation. -/
theorem exists_mem_of_pointsTo (h : ofList entries = .ok d) (htarget : PointsTo entries name target) :
    ∃ n ∈ entries, n.name = target :=
  List.mem_map.mp (mem_names_of_resolveAliases (ofList_eq_ok_iff.mp h).2.1
    (target?_eq_some_iff.mpr htarget))

/-- The end of a chain that starts at a notation is a notation. -/
theorem exists_mem_of_endsAt (h : ofList entries = .ok d) (hn : n ∈ entries)
    (hends : EndsAt entries n.name final) : ∃ m ∈ entries, m.name = final ∧ m.aliasOf = none := by
  have hmem : ∃ m ∈ entries, m.name = final := by
    rcases ReflTransGen.cases_tail hends.1 with rfl | ⟨_, -, hlast⟩
    · exact ⟨n, hn, rfl⟩
    · exact exists_mem_of_pointsTo h hlast
  obtain ⟨m, hm, hname⟩ := hmem
  exact ⟨m, hm, hname, target?_eq_none_iff_aliasOf.mp (target?_eq_none_iff.mpr hends.2) m hm hname⟩

/-! ### Accepted lists -/

theorem exists_ofList_eq_ok_iff : (∃ d, ofList entries = .ok d) ↔ Resolvable entries := by
  constructor
  · rintro ⟨d, h⟩
    have hcheck := fun n hn => checkEntry_eq_ok_iff.mp ((ofList_eq_ok_iff.mp h).1 n hn)
    exact {
      names := fun n hn => (hcheck n hn).1
      triggers := fun n hn => (hcheck n hn).2.1
      closed := fun n hn => (hcheck n hn).2.2
      targets := fun _ _ => exists_mem_of_pointsTo h
      acyclic := fun name => (endsAt_canonicalName h name).not_transGen }
  · intro h
    have hcheck : ∀ n ∈ entries, checkEntry n = .ok () := fun n hn =>
      checkEntry_eq_ok_iff.mpr ⟨h.names n hn, h.triggers n hn, h.closed n hn⟩
    have hresolve : ∃ aliases, resolveAliases entries = .ok aliases := by
      refine exists_mapM_eq_ok fun n hn => ?_
      obtain ⟨hn, halias⟩ := List.mem_filter.mp hn
      cases htarget : target? entries n.name with
      | none =>
        rw [target?_eq_none_iff_aliasOf.mp htarget n hn rfl] at halias
        cases halias
      | some target =>
        have hpoints := target?_eq_some_iff.mp htarget
        obtain ⟨final, hfinal⟩ :=
          exists_resolve_eq_ok h.acyclic hpoints (h.targets n.name target hpoints)
        exact ⟨(n.name, final), bind_eq_ok.mpr ⟨final, hfinal, rfl⟩⟩
    obtain ⟨aliases, haliases⟩ := hresolve
    exact ⟨⟨entries, aliases⟩, ofList_eq_ok_iff.mpr ⟨hcheck, haliases, rfl⟩⟩

/-! ### Notations by their names -/

theorem lastOf_eq_some_iff {p : Notation → Bool} : d.lastOf name p = some n ↔
    IsLast (fun m => m.name = name ∧ m.aliasOf = none ∧ p m) d.entries n := by
  refine find?_reverse_eq_some_iff fun m => ?_
  rw [Bool.and_eq_true, Bool.and_eq_true, beq_iff_eq, Option.isNone_iff_eq_none, and_assoc]

theorem lastOf_eq_none_iff {p : Notation → Bool} : d.lastOf name p = none ↔
    ∀ m ∈ d.entries, m.name = name → m.aliasOf = none → p m = false := by
  simp [lastOf]

/-- How a name is found for writing: if it is an alias, as the target of its last alias, wherever that
stands in the list; if it is none, by the last notation of the name that is written. -/
theorem lookup_of_ofList (h : ofList entries = .ok d) (name : String) :
    (∀ target, PointsTo entries name target → d.lookup name = d.lookup target) ∧
      ((∀ m ∈ entries, m.name = name → m.aliasOf = none) →
        ∀ n, d.lookup name = some n ↔
          IsLast (fun m => m.name = name ∧ m.parseOnly = false) entries n) := by
  constructor
  · intro target htarget
    rw [lookup, lookup, canonicalName_of_pointsTo h htarget]
  · intro halias n
    have hends : EndsAt entries name name :=
      .refl (target?_eq_none_iff.mp (target?_eq_none_iff_aliasOf.mpr halias))
    rw [lookup, canonicalName_of_endsAt h hends, lastOf_eq_some_iff, (ofList_eq_ok_iff.mp h).2.2]
    refine isLast_congr fun m hm => and_congr_right fun hname => ?_
    rw [halias m hm hname, Bool.not_eq_true', eq_self, true_and]

/-- A letter that is written in another way, and a second name for it. -/
def overriddenPi : List Notation :=
  standardEntries ++ [.ofSymbol "Pi" "\\varpi", .ofAlias "CircleConstant" "Pi"]

theorem lookup_of_ofList_pi :
    ∃ d, ofList overriddenPi = .ok d ∧ d.lookup "Pi" = some (.ofSymbol "Pi" "\\varpi") ∧
      d.lookup "CircleConstant" = d.lookup "Pi" := by
  have h : ofList overriddenPi = .ok ⟨overriddenPi, [("CircleConstant", "Pi")]⟩ := by rfl
  have hplain : overriddenPi.all fun m => m.name != "Pi" || m.aliasOf.isNone := by rfl
  have halias : ∀ m ∈ overriddenPi, m.name = "Pi" → m.aliasOf = none := by
    intro m hm hname
    have hor := List.all_eq_true.mp hplain m hm
    rw [hname, bne_self_eq_false, Bool.false_or] at hor
    exact Option.isNone_iff_eq_none.mp hor
  have htarget : PointsTo overriddenPi "CircleConstant" "Pi" := target?_eq_some_iff.mp (by rfl)
  have hlast : IsLast (fun m => m.name = "Pi" ∧ m.parseOnly = false) overriddenPi
      (.ofSymbol "Pi" "\\varpi") :=
    ⟨standardEntries, [.ofAlias "CircleConstant" "Pi"], rfl, ⟨rfl, rfl⟩,
      List.forall_mem_singleton.mpr nofun⟩
  exact ⟨_, h, ((lookup_of_ofList h "Pi").2 halias _).mpr hlast,
    (lookup_of_ofList h "CircleConstant").1 "Pi" htarget⟩

/-- A name that is first an alias and then a letter of its own. -/
def overriddenAlias : List Notation :=
  [.ofAlias "A" "B", .ofSymbol "B" "b", .ofSymbol "A" "a"]

/-- An alias counts even if a later notation of the name is none. -/
theorem not_lookup_last :
    ∃ d, ofList overriddenAlias = .ok d ∧
      IsLast (fun m => m.name = "A" ∧ m.parseOnly = false) overriddenAlias (.ofSymbol "A" "a") ∧
      (Notation.ofSymbol "A" "a").aliasOf = none ∧ d.lookup "A" ≠ some (.ofSymbol "A" "a") := by
  have h : ofList overriddenAlias = .ok ⟨overriddenAlias, [("A", "B")]⟩ := by rfl
  have hlast : IsLast (fun m => m.name = "A" ∧ m.parseOnly = false) overriddenAlias
      (.ofSymbol "A" "a") :=
    ⟨[.ofAlias "A" "B", .ofSymbol "B" "b"], [], rfl, ⟨rfl, rfl⟩, List.forall_mem_nil _⟩
  have hlookup : Dictionary.lookup ⟨overriddenAlias, [("A", "B")]⟩ "A" = some (.ofSymbol "B" "b") := by
    rfl
  refine ⟨_, h, hlast, rfl, fun heq => ?_⟩
  have hname := congrArg (Option.map Notation.name) (hlookup.symm.trans heq)
  revert hname
  decide

/-! ### Notations at their triggers -/

/-- What a notation stands for where it is read: itself, or for an alias the last notation that is
written under the name at the end of its chain, or else the last one that is read. -/
inductive StandsFor (entries : List Notation) : Notation → Notation → Prop where
  | itself {n : Notation} (halias : n.aliasOf = none) : StandsFor entries n n
  | written {n m : Notation} {final : String} (halias : n.aliasOf.isSome)
      (hends : EndsAt entries n.name final)
      (hlast : IsLast (fun m => m.name = final ∧ m.aliasOf = none ∧ m.parseOnly = false) entries m) :
      StandsFor entries n m
  | read {n m : Notation} {final : String} (halias : n.aliasOf.isSome)
      (hends : EndsAt entries n.name final)
      (honly : ∀ m ∈ entries, m.name = final → m.aliasOf = none → m.parseOnly = true)
      (hlast : IsLast (fun m => m.name = final ∧ m.aliasOf = none) entries m) :
      StandsFor entries n m

/-- An alias is filed under its name, so what it stands for is the last notation at the end of its
chain. -/
theorem resolved_of_alias (h : ofList entries = .ok d) (hn : n ∈ entries) (halias : n.aliasOf.isSome) :
    d.resolved n = (d.lastOf (d.canonicalName n.name) (!·.parseOnly)).or
      (d.lastOf (d.canonicalName n.name) fun _ => true) := by
  obtain ⟨target, htarget⟩ := Option.isSome_iff_exists.mp halias
  rw [resolved, htarget, canonicalName]
  cases hlookup : d.aliases.lookup n.name with
  | some final => rfl
  | none =>
    -- a name that is not filed is the end of its chain, so it is no alias
    have hends := endsAt_lookup (ofList_eq_ok_iff.mp h).2.1 n.name
    rw [hlookup] at hends
    have hnone := target?_eq_none_iff_aliasOf.mp (target?_eq_none_iff.mpr hends.2) n hn rfl
    rw [hnone] at htarget
    cases htarget

/-- No notation is lost: each one is resolved to what it stands for. -/
theorem exists_resolved (h : ofList entries = .ok d) (hn : n ∈ entries) :
    ∃ m, d.resolved n = some m ∧ StandsFor entries n m := by
  have hentries := (ofList_eq_ok_iff.mp h).2.2
  have hends := endsAt_canonicalName h n.name
  cases halias : n.aliasOf with
  | none => exact ⟨n, by rw [resolved, halias]; rfl, .itself halias⟩
  | some target =>
    have hsome : n.aliasOf.isSome := by rw [halias]; rfl
    rw [resolved_of_alias h hn hsome]
    cases hwritten : d.lastOf (d.canonicalName n.name) (!·.parseOnly) with
    | some m =>
      refine ⟨m, rfl, .written hsome hends ?_⟩
      rw [lastOf_eq_some_iff, hentries] at hwritten
      exact (isLast_congr fun m _ => by rw [Bool.not_eq_true']).mp hwritten
    | none =>
      rw [lastOf_eq_none_iff, hentries] at hwritten
      cases hread : d.lastOf (d.canonicalName n.name) fun _ => true with
      | some m =>
        refine ⟨m, rfl, .read hsome hends (fun m hm hname hplain => ?_) ?_⟩
        · exact (Bool.not_eq_false' _).mp (hwritten m hm hname hplain)
        · rw [lastOf_eq_some_iff, hentries] at hread
          exact (isLast_congr fun m _ => by rw [eq_self, and_true]).mp hread
      | none =>
        rw [lastOf_eq_none_iff, hentries] at hread
        obtain ⟨m, hm, hname, hplain⟩ := exists_mem_of_endsAt h hn hends
        cases hread m hm hname hplain

theorem forall₂_filterMap {α β : Type} {p : α → Bool} {f : α → Option β} {R : α → β → Prop}
    {as : List α} (h : ∀ a ∈ as, ∃ b, f a = some b ∧ R a b) :
    List.Forall₂ R (as.filter p) (as.filterMap fun a => if p a then f a else none) := by
  induction as with
  | nil => exact .nil
  | cons a as ih =>
    have htail := ih fun a ha => h a (List.mem_cons_of_mem _ ha)
    obtain ⟨b, hb, hab⟩ := h a List.mem_cons_self
    cases hp : p a with
    | false =>
      rwa [List.filter_cons_of_neg (by rw [hp]; nofun), List.filterMap_cons_none (by rw [hp]; rfl)]
    | true =>
      rw [List.filter_cons_of_pos hp, List.filterMap_cons_some (by rw [if_pos hp]; exact hb)]
      exact .cons hab htail

/-- At a trigger every notation that can be read there is found, the latest first. -/
theorem forall₂_readAt (h : ofList entries = .ok d) (trigger : String) :
    List.Forall₂ (StandsFor entries)
      (entries.reverse.filter fun n => !n.serializeOnly && n.trigger == some trigger)
      (d.readAt trigger) := by
  rw [readAt, (ofList_eq_ok_iff.mp h).2.2]
  exact forall₂_filterMap fun n hn => exists_resolved h (List.mem_reverse.mp hn)

/-! ### Checked dictionaries -/

/-- The dictionary finds what the list says. -/
structure Resolves (entries : List Notation) (d : Dictionary) : Prop where
  endsAt : ∀ name, EndsAt entries name (d.canonicalName name)
  idempotent : ∀ name, d.canonicalName (d.canonicalName name) = d.canonicalName name
  named : ∀ n ∈ entries, ∃ m ∈ entries, m.name = d.canonicalName n.name ∧ m.aliasOf = none
  listed : ∀ trigger, ∃ read,
    List.Forall₂ (StandsFor entries)
      (entries.reverse.filter fun n => !n.serializeOnly && n.trigger == some trigger) read ∧
    d.operands trigger = read.filter (!·.followsOperand) ∧
    d.operators trigger = read.filter (·.followsOperand)

/-- The lists that are accepted are those that can be resolved, and then everything in them is. -/
theorem resolves_of_ofList :
    ((∃ d, ofList entries = .ok d) ↔ Resolvable entries) ∧
      ∀ d, ofList entries = .ok d → Resolves entries d :=
  ⟨exists_ofList_eq_ok_iff, fun d h => {
    endsAt := endsAt_canonicalName h
    idempotent := canonicalName_canonicalName h
    named := fun n hn => exists_mem_of_endsAt h hn (endsAt_canonicalName h n.name)
    listed := fun trigger => ⟨d.readAt trigger, forall₂_readAt h trigger, rfl, rfl⟩ }⟩

/-- A chain of two aliases that starts before the sum is defined and ends at a sum that is read
alone. -/
def chainedAliases : List Notation :=
  [ (Notation.ofAlias "Plus" "Total").withTrigger "\\plus", .ofAlias "Total" "Sum",
    (Notation.ofInfix "Sum" "+" .addition).onlyParsed ]

theorem resolves_of_ofList_chained :
    ∃ d, ofList chainedAliases = .ok d ∧ Resolves chainedAliases d :=
  ⟨⟨chainedAliases, [("Plus", "Sum"), ("Total", "Sum")]⟩, rfl,
    resolves_of_ofList.2 _ rfl⟩

/-! ### Lists without aliases -/

theorem ofList_of_plain (hplain : ∀ n ∈ entries, n.aliasOf = none)
    (hcheck : ∀ n ∈ entries, checkEntry n = .ok ()) : ofList entries = .ok ⟨entries, []⟩ := by
  refine ofList_eq_ok_iff.mpr ⟨hcheck, ?_, rfl⟩
  have hfilter : entries.filter (·.aliasOf.isSome) = [] := by
    rw [List.filter_eq_nil_iff]
    intro n hn
    rw [hplain n hn]
    exact Bool.false_ne_true
  rw [resolveAliases, hfilter]
  rfl

/-- Without aliases there is nothing to resolve. -/
theorem eq_of_ofList_eq_ok {d : Dictionary} (hplain : ∀ n ∈ entries, n.aliasOf = none)
    (h : ofList entries = .ok d) : d = ⟨entries, []⟩ :=
  Except.ok.inj (h.symm.trans (ofList_of_plain hplain (ofList_eq_ok_iff.mp h).1))

theorem readAt_of_plain (hplain : ∀ n ∈ entries, n.aliasOf = none) (trigger : String) :
    readAt ⟨entries, []⟩ trigger =
      entries.reverse.filter fun n => !n.serializeOnly && n.trigger == some trigger := by
  rw [readAt, ← List.filterMap_eq_filter]
  refine List.filterMap_congr fun n hn => ?_
  rw [resolved, hplain n (List.mem_reverse.mp hn)]
  rfl

theorem trigger_of_mem_readAt (hplain : ∀ n ∈ entries, n.aliasOf = none) {trigger : String}
    (hn : n ∈ readAt ⟨entries, []⟩ trigger) : n ∈ entries ∧ n.trigger = some trigger := by
  rw [readAt_of_plain hplain] at hn
  obtain ⟨hn, hread⟩ := List.mem_filter.mp hn
  exact ⟨List.mem_reverse.mp hn, eq_of_beq (Bool.and_eq_true_iff.mp hread).2⟩

theorem aliasOf_standardEntries : ∀ n ∈ standardEntries, n.aliasOf = none := by
  have hall : standardEntries.all (·.aliasOf.isNone) := by rfl
  exact fun n hn => Option.isNone_iff_eq_none.mp (List.all_eq_true.mp hall n hn)

/-- One notation more, which is no alias, is filed behind the standard ones. -/
theorem eq_of_withOverrides_eq_ok {d : Dictionary} (haliasOf : n.aliasOf = none)
    (h : standard.withOverrides [n] = .ok d) : d = ⟨standardEntries ++ [n], []⟩ :=
  eq_of_ofList_eq_ok
    (List.forall_mem_append.mpr ⟨aliasOf_standardEntries, List.forall_mem_singleton.mpr haliasOf⟩) h

theorem entry_of_mem_operands {trigger : String} (hn : n ∈ standard.operands trigger) :
    n ∈ standardEntries ∧ n.trigger = some trigger :=
  trigger_of_mem_readAt aliasOf_standardEntries (List.mem_filter.mp hn).1

theorem entry_of_mem_operators {trigger : String} (hn : n ∈ standard.operators trigger) :
    n ∈ standardEntries ∧ n.trigger = some trigger :=
  trigger_of_mem_readAt aliasOf_standardEntries (List.mem_filter.mp hn).1

/-! ### Notations with a name or a trigger of their own -/

variable {trigger : String}

/-- The standard notations with the property are this one alone. -/
theorem filter_standardEntries {p : Notation → Bool} (hn : n ∈ standardEntries) (hp : p n = true)
    (honce : standardEntries.countP p = 1) : standardEntries.filter p = [n] := by
  rw [List.countP_eq_length_filter] at honce
  obtain ⟨m, hm⟩ := List.length_eq_one_iff.mp honce
  have hmem : n ∈ standardEntries.filter p := List.mem_filter.mpr ⟨hn, hp⟩
  rw [hm, List.mem_singleton] at hmem
  rw [hm, hmem]

theorem readAt_of_once (hn : n ∈ standardEntries) (htrigger : n.trigger = some trigger)
    (hreads : n.serializeOnly = false)
    (honce : standardEntries.countP (·.trigger == some trigger) = 1) :
    standard.readAt trigger = [n] := by
  have hfilter : standardEntries.filter (fun m => m.trigger == some trigger) = [n] :=
    filter_standardEntries hn (beq_iff_eq.mpr htrigger) honce
  rw [standard, readAt_of_plain aliasOf_standardEntries, ← List.filter_filter, List.filter_reverse,
    hfilter]
  simp [hreads]

theorem operands_of_once (hn : n ∈ standardEntries) (htrigger : n.trigger = some trigger)
    (hreads : n.serializeOnly = false) (hstarts : n.followsOperand = false)
    (honce : standardEntries.countP (·.trigger == some trigger) = 1) :
    standard.operands trigger = [n] := by
  rw [operands, readAt_of_once hn htrigger hreads honce]
  simp [hstarts]

theorem operators_of_once (hn : n ∈ standardEntries) (htrigger : n.trigger = some trigger)
    (hreads : n.serializeOnly = false) (hfollows : n.followsOperand = true)
    (honce : standardEntries.countP (·.trigger == some trigger) = 1) :
    standard.operators trigger = [n] := by
  rw [operators, readAt_of_once hn htrigger hreads honce]
  simp [hfollows]

theorem lookup_of_once (hn : n ∈ standardEntries) (hwrites : n.parseOnly = false)
    (honce : standardEntries.countP (fun m => m.name == n.name && !m.parseOnly) = 1) :
    standard.lookup n.name = some n := by
  have hsome : (standard.lookup n.name).isSome = true := by
    refine List.find?_isSome.mpr ⟨n, List.mem_reverse.mpr hn, ?_⟩
    simp [hwrites, aliasOf_standardEntries n hn, canonicalName, standard]
  obtain ⟨m, hm⟩ := Option.isSome_iff_exists.mp hsome
  have hlast := lastOf_eq_some_iff.mp hm
  have hmem : m ∈ standardEntries.filter (fun m => m.name == n.name && !m.parseOnly) :=
    List.mem_filter.mpr ⟨hlast.mem,
      Bool.and_eq_true_iff.mpr ⟨beq_iff_eq.mpr hlast.prop.1, hlast.prop.2.2⟩⟩
  have hname : (n.name == n.name && !n.parseOnly) = true := by simp [hwrites]
  rw [filter_standardEntries hn hname honce, List.mem_singleton] at hmem
  rw [hm, hmem]

/-- No two notations share the name or the command of a letter or a function. -/
theorem once_letters_functions : ∀ n ∈ letters ++ functions,
    standardEntries.countP (fun m => m.name == n.name && !m.parseOnly) = 1 ∧
      standardEntries.countP (·.trigger == n.trigger) = 1 := by
  decide +kernel

end TexFormula.Dictionary
