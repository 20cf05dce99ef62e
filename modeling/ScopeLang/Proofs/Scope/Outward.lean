import ScopeLang.Proofs.Scope.Course

/-!
# The way outward

Following parents from a handle meets no handle twice and comes to an end after as many steps as
there are scopes in use, or before. The end is the root, or a handle whose scope was given back: the
scopes around it are out of sight, even when another scope lives in its slot by now. So a look-up
ends, and it asks no more scopes for the name than are in use.

A handle was given out when it led to a scope at some moment. As long as no slot is emptied 2³²
times, a handle that was given out once counts as given out ever after, so a new scope is never
inside itself.

## Main definitions

* `Arena.Outward` — the handles that are met when parents are followed.
* `Arena.Checks` — looking for a name, with the number of scopes that are asked for it.
* `Arena.EndsOutward` — the way outward ends, and so does every look-up along it.

## Main statements

* `Arena.Chain.length_le_liveCount` — a chain has no more scopes than are in use.
* `Arena.isChain_genLe` — no generation starts over when no slot is emptied too often.
* `Arena.Move.issued`, `Arena.exists_alive_of_issued` — handles given out, before and now.
* `Arena.Regular.endsOutward` — the way outward in a regular arena.
-/

namespace ScopeLang

namespace Arena

variable {ν : Type} {a b : Arena ν} {scopeOf : ν → Option ScopeId} {id x : ScopeId}
  {ids path : List ScopeId} {name : String}

/-! ### Following parents -/

/-- The scopes of a chain lie in different slots, all of them occupied. -/
theorem Chain.length_le_liveCount (h : a.Chain id ids) : ids.length ≤ a.liveCount := by
  have distinct : (ids.map ScopeId.index).Nodup := by
    refine List.Nodup.map_on (fun x hx y hy hxy => ?_) h.nodup
    exact (h.alive hx).eq_of_index_eq (h.alive hy) hxy
  have within : ids.map ScopeId.index ⊆ (List.range a.slots.size).filter a.occupied := by
    intro i hi
    obtain ⟨x, hx, rfl⟩ := List.mem_map.1 hi
    have used := (alive_iff.1 (h.alive hx)).1
    exact List.mem_filter.2 ⟨List.mem_range.2 (lt_of_occupied used), used⟩
  rw [liveCount_eq_countP, List.countP_eq_length_filter]
  simpa using (List.subperm_of_subset distinct within).length_le

/-- The handles that are met when parents are followed from `id` for as long as there are any. -/
structure Outward (a : Arena ν) (id : ScopeId) (path : List ScopeId) : Prop where
  start : path.head? = some id
  links : path.IsChain fun x p => a.parent? x = some p
  ends : ∀ x ∈ path.getLast?, a.parent? x = none

namespace Outward

theorem single (h : a.parent? id = none) : a.Outward id [id] :=
  ⟨rfl, List.isChain_singleton id, by simpa using h⟩

theorem cons {p : ScopeId} (h : a.Outward p path) (hp : a.parent? id = some p) :
    a.Outward id (id :: path) := by
  obtain ⟨rest, rfl⟩ := List.head?_eq_some_iff.1 h.start
  exact ⟨rfl, List.isChain_cons_cons.2 ⟨hp, h.links⟩, by simpa using h.ends⟩

/-- All handles on the way but the first are those of parents. -/
theorem eq_or_parent (h : a.Outward id path) :
    ∀ x ∈ path, x = id ∨ ∃ y, a.parent? y = some x := by
  refine h.links.induction _ _ (fun y x hyx _ => .inr ⟨y, hyx⟩) fun nonempty => .inl ?_
  exact Option.some.inj ((List.head?_eq_some_head nonempty).symm.trans h.start)

end Outward

/-- Of the handles on the way, only the last may lead to no scope. -/
theorem Chain.exists_outward (h : a.Chain id ids) : ∃ path, a.Outward id path ∧ path.Nodup ∧
    path.length ≤ ids.length + 1 ∧ ∀ x ∈ path, a.Alive x → x ∈ ids := by
  induction h with
  | @released id hs =>
    have none : a.parent? id = none := by simp [parent?, hs]
    refine ⟨[id], .single none, List.nodup_singleton id, by simp, fun x hx alive => ?_⟩
    rw [List.mem_singleton.1 hx] at alive
    exact absurd alive (scope?_eq_none_iff.1 hs)
  | @outermost id scope hs hp =>
    have none : a.parent? id = none := by simp [parent?, hs, hp]
    exact ⟨[id], .single none, List.nodup_singleton id, by simp, by simp⟩
  | @inner id parent scope rest hs hp hrest ih =>
    obtain ⟨path, outward, distinct, length, live⟩ := ih
    have new : id ∉ path := fun hid =>
      (List.nodup_cons.1 (Chain.inner hs hp hrest).nodup).1 (live id hid ⟨scope, hs⟩)
    have link : a.parent? id = some parent := by simp [parent?, hs, hp]
    refine ⟨id :: path, outward.cons link, List.nodup_cons.2 ⟨new, distinct⟩, by simpa using length, ?_⟩
    intro x hx alive
    rcases List.mem_cons.1 hx with rfl | hx
    · exact List.mem_cons_self
    · exact List.mem_cons_of_mem id (live x hx alive)

/-! ### Counting the scopes that are asked for a name -/

/-- Looking for a name from a scope outward asks so many scopes for it and comes to this. -/
inductive Checks (a : Arena ν) (name : String) : ScopeId → Nat → Option ScopeId → Prop where
  | released {id : ScopeId} : a.scope? id = none → Checks a name id 0 none
  | here {id : ScopeId} {scope : Scope ν} :
    a.scope? id = some scope → scope.bindings.binds name = true → Checks a name id 1 (some id)
  | outermost {id : ScopeId} {scope : Scope ν} :
    a.scope? id = some scope → scope.bindings.binds name = false → scope.parent = none →
      Checks a name id 1 none
  | outward {id parent : ScopeId} {scope : Scope ν} {n : Nat} {found : Option ScopeId} :
    a.scope? id = some scope → scope.bindings.binds name = false → scope.parent = some parent →
      Checks a name parent n found → Checks a name id (n + 1) found

namespace Checks

variable {n m : Nat} {found found' : Option ScopeId}

theorem search (h : a.Checks name id n found) : a.Search name id found := by
  induction h with
  | released hs => exact .released hs
  | here hs hb => exact .here hs hb
  | outermost hs hb hp => exact .outermost hs hb hp
  | outward hs hb hp _ ih => exact .outward hs hb hp ih

theorem count_unique (h : a.Checks name id n found) (h' : a.Checks name id m found') : m = n := by
  induction h generalizing m with
  | released => cases h' <;> simp_all
  | here => cases h' <;> simp_all
  | outermost => cases h' <;> simp_all
  | outward hs hb hp _ ih =>
    cases h' with
    | released | here | outermost => simp_all
    | outward hs' hb' hp' hrest =>
      obtain rfl := Option.some.inj (hs.symm.trans hs')
      obtain rfl := Option.some.inj (hp.symm.trans hp')
      rw [ih hrest]

end Checks

theorem Chain.exists_checks (h : a.Chain id ids) (name : String) :
    ∃ n ≤ ids.length, ∃ found, a.Checks name id n found := by
  induction h with
  | released hs => exact ⟨0, by simp, _, .released hs⟩
  | @outermost id scope hs hp =>
    cases hb : scope.bindings.binds name with
    | true => exact ⟨1, by simp, _, .here hs hb⟩
    | false => exact ⟨1, by simp, _, .outermost hs hb hp⟩
  | @inner id parent scope rest hs hp _ ih =>
    cases hb : scope.bindings.binds name with
    | true => exact ⟨1, by simp, _, .here hs hb⟩
    | false =>
      obtain ⟨n, hn, found, hrest⟩ := ih
      exact ⟨n + 1, by simpa using hn, found, .outward hs hb hp hrest⟩

/-- A look-up along a chain that ends is the unbounded search, which asks every scope of the chain at
most once. -/
theorem Chain.checks_iff (h : a.Chain id ids) (name : String) : ∃ n ≤ ids.length,
    ∀ m found, a.Checks name id m found ↔ m = n ∧ found = a.lookup id name := by
  obtain ⟨n, hn, found, checks⟩ := h.exists_checks name
  obtain rfl : found = a.lookup id name := checks.search.unique (Grounded.search ⟨ids, h⟩ name)
  refine ⟨n, hn, fun m found' => ⟨fun h' => ?_, ?_⟩⟩
  · exact ⟨checks.count_unique h', h'.search.unique checks.search⟩
  · rintro ⟨rfl, rfl⟩
    exact checks

/-! ### Handles that were given out -/

@[simp] theorem generation_new (i : Nat) : (new : Arena ν).generation i = 0 := by
  cases i <;> simp [generation, new]

/-- A slot is not emptied more often than the arena changes. -/
theorem frees_le_length (i : Nat) (l : List (Arena ν)) : frees i l ≤ l.length := by
  induction l with
  | nil => exact Nat.zero_le _
  | cons a l ih =>
    cases l with
    | nil => exact Nat.zero_le _
    | cons b l =>
      rw [frees, List.length_cons]
      split <;> omega

/-- No generation starts over when no slot is emptied often enough for it. -/
theorem isChain_genLe {later : List (Arena ν)} (h : List.IsChain (Move scopeOf) (a :: later))
    (ha : a.Tidy) (few : ∀ i, (a.generation i).toNat + frees i (a :: later) < 2 ^ 32) :
    List.IsChain GenLe (a :: later) := by
  induction later generalizing a with
  | nil => exact List.isChain_singleton a
  | cons b later ih =>
    obtain ⟨hab, hrest⟩ := List.isChain_cons_cons.1 h
    have risen (i : Nat) : (b.generation i).toNat = (a.generation i).toNat +
        if a.occupied i = true ∧ b.occupied i = false then 1 else 0 := by
      have room := few i
      rw [frees] at room
      have one : (if a.occupied i = true ∧ b.occupied i = false then 1 else 0 : UInt32).toNat =
          if a.occupied i = true ∧ b.occupied i = false then 1 else 0 := by split <;> rfl
      rw [hab.generation_eq ha, UInt32.toNat_add, one]
      exact Nat.mod_eq_of_lt (by omega)
    refine List.isChain_cons_cons.2 ⟨fun i => ?_, ih hrest (hab.tidy ha) fun i => ?_⟩
    · rw [UInt32.le_iff_toNat_le, risen]
      exact Nat.le_add_right _ _
    · have := few i
      rw [frees] at this
      rw [risen]
      omega

/-- A handle stays given out when the arena changes and no generation starts over. -/
theorem Move.issued (h : Move scopeOf a b) (ha : a.Tidy) (hle : GenLe a b) (hx : a.Issued x) :
    b.Issued x := by
  refine hx.of_genLe hle fun y hy hgone same => hgone ?_
  -- the generation would have gone up with the slot being emptied
  have used := alive_iff.1 hy
  have risen := h.generation_eq ha y.index
  refine alive_iff.2 ⟨?_, same ▸ used.2⟩
  by_contra empty
  rw [if_pos ⟨used.1, by simpa using empty⟩, ← same] at risen
  simp at risen

/-- A handle that counts as given out after a change did so before, or leads to a scope now. -/
theorem Move.alive_or_issued (h : Move scopeOf a b) (ha : a.Tidy) (hx : b.Issued x) :
    b.Alive x ∨ a.Issued x := by
  refine hx.imp_right fun hlt => ?_
  have risen := h.generation_eq ha x.index
  split at risen
  · rename_i emptied
    by_cases hg : x.generation = a.generation x.index
    · exact .inl (alive_iff.2 ⟨emptied.1, hg.symm⟩)
    · right
      grind
  · exact .inr (by simpa [risen] using hlt)

theorem alive_of_issued_new (h : (new : Arena ν).Issued x) : (new : Arena ν).Alive x := by
  refine h.resolve_right fun hlt => ?_
  simp at hlt

/-- A handle that counts as given out led to a scope at some moment from the beginning on. -/
theorem exists_alive_of_issued {past : List (Arena ν)}
    (h : List.IsChain (Move scopeOf) (past ++ [a])) (first : (past ++ [a]).head? = some new)
    (hx : a.Issued x) : ∃ b ∈ past ++ [a], b.Alive x := by
  have tidy : ∀ b ∈ past ++ [a], b.Tidy := by
    refine h.induction Tidy _ (fun _ _ hm => hm.tidy) fun nonempty => ?_
    rw [List.head?_eq_some_head nonempty] at first
    exact Option.some.inj first ▸ tidy_new
  induction past using List.reverseRecOn generalizing a with
  | nil =>
    obtain rfl : a = new := by simpa using first
    exact ⟨new, by simp, alive_of_issued_new hx⟩
  | append_singleton past b ih =>
    have before : List.IsChain (Move scopeOf) (past ++ [b]) := h.left_of_append
    have hmove : Move scopeOf b a := by simpa using (List.isChain_append.1 h).2.2
    rcases hmove.alive_or_issued (tidy b (by simp)) hx with alive | issued
    · exact ⟨a, by simp, alive⟩
    · rw [List.head?_append_of_ne_nil _ (by simp)] at first
      obtain ⟨c, hc, alive⟩ :=
        ih before first issued fun c hc => tidy c (List.mem_append_left [a] hc)
      exact ⟨c, List.mem_append_left [a] hc, alive⟩

/-- What is given out at the end of a list of arenas was so at any earlier moment of it. -/
theorem issued_of_mem {l : List (Arena ν)} (moves : List.IsChain (Move scopeOf) (l ++ [a]))
    (rises : List.IsChain GenLe (l ++ [a])) (tidy : ∀ b ∈ l, b.Tidy) :
    ∀ b ∈ l, b.Issued x → a.Issued x := by
  induction l with
  | nil => exact nofun
  | cons b l ih =>
    obtain ⟨htidy, hrest⟩ := List.forall_mem_cons.1 tidy
    obtain ⟨hmove, moves⟩ := List.isChain_cons.1 moves
    obtain ⟨hle, rises⟩ := List.isChain_cons.1 rises
    have later := ih moves rises hrest
    refine List.forall_mem_cons.2 ⟨fun hx => ?_, later⟩
    cases l with
    | nil => exact (hmove a (by simp)).issued htidy (hle a (by simp)) hx
    | cons c l =>
      have next : c.Issued x := (hmove c (by simp)).issued htidy (hle c (by simp)) hx
      exact later c List.mem_cons_self next

/-! ### The end of the way -/

/-- The way outward from a handle ends, and so does looking for a name along it. The arenas `past` are
those before this one. -/
structure EndsOutward (past : List (Arena ν)) (a : Arena ν) (id : ScopeId) : Prop where
  /-- No handle is met twice. After no more steps than there are scopes in use the root is met, or a
  handle whose scope was given back. -/
  path : ∃ path stop, a.Outward id path ∧ path.Nodup ∧ path.length ≤ a.liveCount + 1 ∧
    path.getLast? = some stop ∧
      (stop = .root ∨ ¬ a.Alive stop ∧ (stop = id ∨ ∃ b ∈ past, b.Alive stop))
  /-- The search for a name ends with what a look-up finds. It asks no more scopes than are in use. -/
  lookup : ∀ name : String, ∃ n ≤ a.liveCount,
    ∀ m found, a.Checks name id m found ↔ m = n ∧ found = a.lookup id name

theorem Regular.endsOutward {past : List (Arena ν)} (h : a.Regular scopeOf) (rooted : a.Rooted)
    (given : ∀ x, a.Issued x → ∃ b ∈ past ++ [a], b.Alive x) (id : ScopeId) :
    EndsOutward past a id := by
  obtain ⟨ids, chain⟩ := h.grounded id
  have few := chain.length_le_liveCount
  refine ⟨?path, fun name => ?lookup⟩
  case lookup =>
    obtain ⟨n, hn, checks⟩ := chain.checks_iff name
    exact ⟨n, hn.trans few, checks⟩
  case path =>
    obtain ⟨path, outward, distinct, length, -⟩ := chain.exists_outward
    obtain ⟨rest, hpath⟩ := List.head?_eq_some_iff.1 outward.start
    obtain ⟨stop, hstop⟩ : ∃ stop, path.getLast? = some stop := by simp [hpath, List.getLast?_cons]
    refine ⟨path, stop, outward, distinct, by omega, hstop, ?_⟩
    have none : a.parent? stop = none := outward.ends stop hstop
    by_cases alive : a.Alive stop
    · obtain ⟨scope, hs⟩ := alive
      exact .inl (rooted.only (by simpa [around, parent?, hs] using none))
    · refine .inr ⟨alive, (outward.eq_or_parent stop (List.mem_of_getLast? hstop)).imp_right ?_⟩
      rintro ⟨y, hy⟩
      obtain ⟨scope, hs, hp⟩ := Option.bind_eq_some_iff.1 hy
      obtain ⟨b, hb, before⟩ := given stop (h.issued hs (mem_successors_of_parent hp))
      rcases List.mem_append.1 hb with hb | hb
      · exact ⟨b, hb, before⟩
      · exact absurd (List.mem_singleton.1 hb ▸ before) alive

end Arena

end ScopeLang
