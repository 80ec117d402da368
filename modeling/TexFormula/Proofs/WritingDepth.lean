import TexFormula.Proofs.UnwrittenDictionaries

/-!
# The limit of writing is a limit of resources

What is written within a limit of levels is written alike within every greater one. A node is
written from nodes that need not be parts of it, but twice as many levels as the tree is high are
always enough (`Expression.writtenLevels_lt_two_mul_height`).

The levels are counted by a counter that each call steps up and down again (`Counts`). By the
standard notations writing with the counter is the same as writing within the levels that are left,
and however it ends, the counter is back where it was.
-/

namespace TexFormula

/-! ### Heights -/

namespace Expression

mutual

/-- Leaves have the height 1, a function one more than the highest of its head and arguments. -/
def height : Expression → Nat
  | .apply head arguments => 1 + max (height head) (greatest (heights arguments))
  | _ => 1

def heights : List Expression → List Nat
  | [] => []
  | e :: es => height e :: heights es

end

theorem heights_eq_map (es : List Expression) : heights es = es.map height := by
  induction es with
  | nil => rfl
  | cons e es ih => rw [heights, ih, List.map_cons]

theorem height_apply (head : Expression) (arguments : List Expression) :
    (apply head arguments).height = 1 + max head.height (greatest (arguments.map height)) := by
  rw [height, heights_eq_map]

/-- Each level of the tree takes two levels of writing at most: a power with a negative exponent is
written by a power, one level down. -/
theorem writtenLevels_lt_two_mul_height : (e : Expression) → e.writtenLevels < 2 * e.height
  | .number _ | .symbol _ | .text _ | .dictionary _ | .missing => Nat.one_lt_two
  | .apply head arguments => by
    have hhead := writtenLevels_lt_two_mul_height head
    have hall : ∀ a ∈ arguments, a.writtenLevels < 2 * a.height :=
      fun a _ => writtenLevels_lt_two_mul_height a
    have hle := greatest_map_le.mp (Nat.le_refl (greatest (arguments.map height)))
    rw [writtenLevels_apply, height_apply]
    have hmax : head.height ≤ max head.height (greatest (arguments.map height)) :=
      Nat.le_max_left _ _
    have hargument (a : Expression) (ha : a ∈ arguments) :
        a.writtenLevels ≤ 2 * max head.height (greatest (arguments.map height)) - 1 := by
      have hlt := hall a ha
      have hheight := Nat.le_trans (hle a ha)
        (Nat.le_max_right head.height (greatest (arguments.map height)))
      omega
    have hbelow : levelsBelow head arguments head.writtenLevels (arguments.map writtenLevels) ≤
        2 * max head.height (greatest (arguments.map height)) := by
      unfold levelsBelow
      split
      · exact Nat.le_trans (levelsBelowName_le_succ hargument) (by omega)
      · refine Nat.max_le.mpr ⟨by omega, greatest_map_le.mpr fun a ha => ?_⟩
        exact Nat.le_trans (hargument a ha) (Nat.sub_le _ _)
    omega

end Expression

/-! ### Writing with a counter -/

/-- How a program ends that writes with a counter of levels, and where the counter stands then. Each
call counts one level, is refused if there are too many of them, and gives the level back. -/
inductive Counts (s : Serializer) : {α : Type} →
    ((Expression → Except WriteFault String) → Except WriteFault α) → Nat →
    Except WriteFault α → Nat → Prop where
  | ok {α : Type} (a : α) (depth : Nat) : Counts s (fun _ => .ok a) depth (.ok a) depth
  | error {α : Type} (fault : WriteFault) (depth : Nat) :
      Counts (α := α) s (fun _ => .error fault) depth (.error fault) depth
  | refused (e : Expression) {depth : Nat} (h : s.options.maxDepth < depth + 1) :
      Counts s (fun write => write e) depth (.error (.fatal (.depthExceeded s.options.maxDepth)))
        (depth + 1 - 1)
  | entered (e : Expression) {depth after : Nat} {result : Except WriteFault String}
      (h : depth + 1 ≤ s.options.maxDepth)
      (hnode : Counts s (fun write => s.node write e) (depth + 1) result after) :
      Counts s (fun write => write e) depth result (after - 1)
  | bind {α β : Type} {first : (Expression → Except WriteFault String) → Except WriteFault α}
      {next : (Expression → Except WriteFault String) → α → Except WriteFault β} {a : α}
      {depth between after : Nat} {result : Except WriteFault β}
      (hfirst : Counts s first depth (.ok a) between)
      (hnext : Counts s (fun write => next write a) between result after) :
      Counts s (fun write => first write >>= next write) depth result after
  | stop {α β : Type} {first : (Expression → Except WriteFault String) → Except WriteFault α}
      (next : (Expression → Except WriteFault String) → α → Except WriteFault β)
      {fault : WriteFault} {depth after : Nat}
      (hfirst : Counts s first depth (.error fault) after) :
      Counts s (fun write => first write >>= next write) depth (.error fault) after

namespace Counts

variable {s : Serializer} {α : Type} {e : Expression} {es : List Expression} {depth after : Nat}
  {program : (Expression → Except WriteFault String) → Except WriteFault α}
  {result : Except WriteFault α}

/-- The counter is back where it was, and the program has written within the levels left. -/
theorem eq (h : Counts s program depth result after) :
    result = program (s.within (s.options.maxDepth - depth)) ∧ after = depth := by
  induction h with
  | ok a depth => exact ⟨rfl, rfl⟩
  | error fault depth => exact ⟨rfl, rfl⟩
  | @refused e depth h =>
    have hlevels : s.options.maxDepth - depth = 0 := by omega
    rw [hlevels]
    exact ⟨rfl, rfl⟩
  | @entered e depth after result h _ ih =>
    obtain ⟨hresult, hafter⟩ := ih
    have hlevels : s.options.maxDepth - depth = s.options.maxDepth - (depth + 1) + 1 := by omega
    rw [hlevels, hafter, hresult]
    exact ⟨rfl, rfl⟩
  | bind _ _ ihfirst ihnext =>
    obtain ⟨hfirst, rfl⟩ := ihfirst
    obtain ⟨rfl, rfl⟩ := ihnext
    dsimp only
    rw [← hfirst]
    exact ⟨rfl, rfl⟩
  | stop next _ ih =>
    obtain ⟨hfirst, rfl⟩ := ih
    dsimp only
    rw [← hfirst]
    exact ⟨rfl, rfl⟩

theorem mapM (h : ∀ e ∈ es, ∃ result after, Counts s (fun write => write e) depth result after) :
    ∃ result after, Counts s (fun write => es.mapM write) depth result after := by
  induction es with
  | nil => exact ⟨.ok [], depth, .ok [] depth⟩
  | cons e es ih =>
    obtain ⟨⟨first, between, hfirst⟩, hes⟩ := List.forall_mem_cons.mp h
    obtain ⟨rest, after, hrest⟩ := ih hes
    simp only [List.mapM_cons]
    obtain ⟨-, rfl⟩ := hfirst.eq
    cases first with
    | error fault => exact ⟨_, _, .stop _ hfirst⟩
    | ok text =>
      cases rest with
      | error fault => exact ⟨_, _, .bind hfirst (.stop _ hrest)⟩
      | ok texts => exact ⟨_, _, .bind hfirst (.bind hrest (.ok (text :: texts) _))⟩

/-- Each call comes to an end: a node is put together from what the calls for the nodes below it
give, by induction on the levels left. -/
theorem exists_of_standard (hd : s.dictionary = .standard) (e : Expression) (depth : Nat) :
    ∃ result after, Counts s (fun write => write e) depth result after := by
  induction hlevels : s.options.maxDepth - depth generalizing e depth with
  | zero => exact ⟨_, _, .refused e (by omega)⟩
  | succ levels ih =>
    suffices h : ∃ result after, Counts s (fun write => s.node write e) (depth + 1) result after by
      obtain ⟨result, after, hnode⟩ := h
      exact ⟨result, after - 1, .entered e (by omega) hnode⟩
    by_cases he : ∀ entries, e ≠ .dictionary entries
    · obtain ⟨assemble, hnode⟩ := Serializer.node_eq_map_mapM hd he
      have hprogram : (fun write => s.node write e) =
          fun write => e.visited.mapM write >>= fun texts => .ok (assemble texts) := by
        funext write
        have hwrite : s.node write e = (e.visited.mapM write).map assemble :=
          hnode write s.options.maxDepth
        rw [hwrite]
        cases e.visited.mapM write <;> rfl
      obtain ⟨texts, after, htexts⟩ := mapM fun v _ => ih v (depth + 1) (by omega)
      rw [hprogram]
      cases texts with
      | error fault => exact ⟨_, _, .stop _ htexts⟩
      | ok texts => exact ⟨_, _, .bind htexts (.ok (assemble texts) _)⟩
    · obtain ⟨entries, rfl⟩ := not_forall_not.mp he
      exact ⟨_, _, .error (.notSerializable "dictionary") (depth + 1)⟩

/-- Writing with the counter is writing within the levels that are left. -/
theorem iff_of_standard (hd : s.dictionary = .standard) {result : Except WriteFault String} :
    Counts s (fun write => write e) depth result after ↔
      result = s.within (s.options.maxDepth - depth) e ∧ after = depth := by
  refine ⟨eq, ?_⟩
  rintro ⟨rfl, rfl⟩
  obtain ⟨result, after, h⟩ := exists_of_standard hd e after
  obtain ⟨rfl, rfl⟩ := h.eq
  exact h

end Counts

namespace Serializer

open Expression

variable {s : Serializer} {e : Expression} {text : String} {levels more limit : Nat}

/-- Neither more levels nor another limit to report change a text. -/
theorem within_limited_of_le (hd : s.dictionary = .standard) (h : s.within levels e = .ok text)
    (hle : levels ≤ more) : (s.limited limit).within more e = .ok text := by
  induction levels generalizing e text more with
  | zero => cases h
  | succ levels ih =>
    obtain ⟨more, rfl⟩ := Nat.exists_eq_add_of_le' (Nat.le_of_add_left_le hle)
    by_cases he : ∀ entries, e ≠ .dictionary entries
    · obtain ⟨assemble, hnode⟩ := node_eq_map_mapM hd he
      have hwithin : s.within (levels + 1) e = (e.visited.mapM (s.within levels)).map assemble :=
        hnode (s.within levels) s.options.maxDepth
      have hlimited : (s.limited limit).within (more + 1) e =
          (e.visited.mapM ((s.limited limit).within more)).map assemble :=
        hnode ((s.limited limit).within more) limit
      rw [hwithin] at h
      cases htexts : e.visited.mapM (s.within levels) with
      | error fault =>
        rw [htexts] at h
        cases h
      | ok texts =>
        have hmore : e.visited.mapM ((s.limited limit).within more) = .ok texts :=
          mapM_eq_ok.mpr ((mapM_eq_ok.mp htexts).imp fun v text hv =>
            ih hv (Nat.le_of_succ_le_succ hle))
        rw [hlimited, hmore, ← h, htexts]
    · obtain ⟨entries, rfl⟩ := not_forall_not.mp he
      cases h

/-- If all levels of the tree are allowed, the limit is not met. -/
theorem within_ne_depthExceeded (hd : s.dictionary = .standard) (hlevels : e.writtenLevels ≤ levels) :
    s.within levels e ≠ .error (.fatal (.depthExceeded limit)) := by
  induction levels generalizing e with
  | zero =>
    have hone := one_le_writtenLevels e
    omega
  | succ levels ih =>
    intro h
    by_cases he : ∀ entries, e ≠ .dictionary entries
    · obtain ⟨assemble, hnode⟩ := node_eq_map_mapM hd he
      have hwithin : s.within (levels + 1) e = (e.visited.mapM (s.within levels)).map assemble :=
        hnode (s.within levels) s.options.maxDepth
      rw [hwithin] at h
      cases htexts : e.visited.mapM (s.within levels) with
      | ok texts =>
        rw [htexts] at h
        cases h
      | error fault =>
        rw [htexts] at h
        cases h
        obtain ⟨v, hv, hfault⟩ := exists_mem_of_mapM_eq_error htexts
        have hlt := writtenLevels_lt_of_mem_visited hv
        exact ih (by omega) hfault
    · obtain ⟨entries, rfl⟩ := not_forall_not.mp he
      cases h

/-- By the standard notations, what is written within a limit is written alike within every greater
limit, a limit of twice the height is never exceeded, and after each call, whether it ends well or
not, the counter of levels is back where it was. -/
theorem limit_bounds_resources (options : WriteOptions) (e : Expression) :
    (∀ text limit, serialize ⟨.standard, options⟩ e = .ok text → options.maxDepth ≤ limit →
      serialize ⟨.standard, { options with maxDepth := limit }⟩ e = .ok text) ∧
    (2 * e.height ≤ options.maxDepth →
      ∀ limit, serialize ⟨.standard, options⟩ e ≠ .error (.fatal (.depthExceeded limit))) ∧
    ∀ depth result after, Counts ⟨.standard, options⟩ (fun write => write e) depth result after ↔
      result = within ⟨.standard, options⟩ (options.maxDepth - depth) e ∧ after = depth := by
  refine ⟨fun text limit h hle => ?_, fun hheight limit => ?_, fun depth result after => ?_⟩
  · exact within_limited_of_le (s := ⟨.standard, options⟩) rfl h hle
  · have hlevels := writtenLevels_lt_two_mul_height e
    exact within_ne_depthExceeded rfl (Nat.le_trans (Nat.le_of_lt hlevels) hheight)
  · exact Counts.iff_of_standard rfl

/-- The reciprocal of a root takes three levels, and two is its height. -/
theorem limit_bounds_resources_reciprocalRoot :
    let e := Expression.function "Power" [.symbol "x", .number (.machine (.half true))]
    e.height = 2 ∧
    serialize ⟨.standard, { maxDepth := 2 }⟩ e = .error (.fatal (.depthExceeded 2)) ∧
    serialize ⟨.standard, { maxDepth := 3 }⟩ e = .ok "\\frac\x7b1\x7d\x7b\\sqrt\x7bx\x7d\x7d" ∧
    serialize ⟨.standard, { maxDepth := 64 }⟩ e = .ok "\\frac\x7b1\x7d\x7b\\sqrt\x7bx\x7d\x7d" ∧
    (∀ limit, serialize ⟨.standard, { maxDepth := 4 }⟩ e ≠
      .error (.fatal (.depthExceeded limit))) ∧
    Counts ⟨.standard, { maxDepth := 2 }⟩ (fun write => write e) 0
      (.error (.fatal (.depthExceeded 2))) 0 := by
  intro e
  have hwritten : serialize ⟨.standard, { maxDepth := 3 }⟩ e =
      .ok "\\frac\x7b1\x7d\x7b\\sqrt\x7bx\x7d\x7d" := rfl
  have hstopped : serialize ⟨.standard, { maxDepth := 2 }⟩ e =
      .error (.fatal (.depthExceeded 2)) := rfl
  exact ⟨rfl, hstopped, hwritten,
    (limit_bounds_resources { maxDepth := 3 } e).1 _ 64 hwritten (by decide),
    (limit_bounds_resources { maxDepth := 4 } e).2.1 (by decide),
    ((limit_bounds_resources { maxDepth := 2 } e).2.2 0 _ 0).mpr ⟨hstopped.symm, rfl⟩⟩

end Serializer

end TexFormula
