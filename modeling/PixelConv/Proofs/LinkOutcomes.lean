import PixelConv.Proofs.Ranking
import PixelConv.Proofs.Support

/-!
# What linking comes to

The operations of a program are linked one after the other. For each of them four things are done: it
is moved onto words, the best entry is found, the entry is set up (`Chain.pick`), and its kernel is
appended if there is room. So linking gives a chain exactly if all operations are taken up and there is
room for them (`Chain.linkFrom_eq_ok_iff`), and otherwise reports what went wrong at the first place
where something did (`Chain.linkFrom_eq_error_iff`). Main statement: `Chain.link_outcome`.
-/

namespace PixelConv

/-- What was chosen for an operation: an entry, the table it is from and the kernel it was set up to. -/
structure Pick where
  entry : Entry
  table : Table
  kernel : Kernel

namespace Chain

/-! ## 1. One operation -/

section Pick

variable {tables : List Table} {index : Nat} {unread : Quad Bool} {op : Op}

/-- The choice for the operation at place `index`, or why there is none. -/
def pick (tables : List Table) (index : Nat) (unread : Quad Bool) (op : Op) :
    Except CompileError Pick :=
  match op.onWords with
  | .error e => .error e
  | .ok word =>
    match Table.find? tables word unread with
    | none => .error (.noKernel index)
    | some (entry, table) => (entry.setup word).map fun kernel => ⟨entry, table, kernel⟩

/-- The chain with a kernel more. -/
def extend (chain : Chain) (p : Pick) : Chain :=
  ({ chain with links := chain.links ++ [p.kernel] } : Chain).require p.entry p.table

/-- **One step of linking.** -/
theorem linkFrom_cons (chain : Chain) (ops : List Op) :
    (linkFrom tables index unread chain (op :: ops)).2 = pick tables index unread op >>= fun p =>
      if chain.links.length < maxLength then
        (linkFrom tables (index + 1) op.info.unused (chain.extend p) ops).2
      else .error (.unsupported .chainFull) := by
  rw [linkFrom, pick]
  cases hword : op.onWords with
  | error e => rfl
  | ok word =>
    simp only [← info_onWords hword]
    cases Table.find? tables word unread with
    | none => rfl
    | some c =>
      obtain ⟨entry, table⟩ := c
      simp only
      cases entry.setup word with
      | error e => rfl
      | ok k =>
        by_cases hroom : chain.links.length < maxLength
        · have hpush : (Except.ok k >>= chain.push : Except CompileError Chain) =
              .ok { chain with links := chain.links ++ [k] } := if_pos hroom
          rw [hpush]
          exact (if_pos hroom).symm
        · have hpush : (Except.ok k >>= chain.push : Except CompileError Chain) =
              .error (.unsupported .chainFull) := if_neg hroom
          rw [hpush]
          exact (if_neg hroom).symm

theorem pick_eq_ok_iff {p : Pick} : pick tables index unread op = .ok p ↔
    ∃ word, op.onWords = .ok word ∧ Table.find? tables word unread = some (p.entry, p.table) ∧
      p.entry.setup word = .ok p.kernel := by
  constructor
  · intro h
    rw [pick] at h
    split at h
    · cases h
    rename_i word hword
    split at h
    · cases h
    rename_i entry table hfind
    cases hsetup : entry.setup word with
    | error e =>
      rw [hsetup] at h
      cases h
    | ok k =>
      rw [hsetup] at h
      cases h
      exact ⟨word, hword, hfind, hsetup⟩
  · rintro ⟨word, hword, hfind, hsetup⟩
    simp only [pick, hword, hfind, hsetup]
    rfl

/-- A missing kernel is reported by the search, or by the set-up of the entry that was found. -/
theorem pick_eq_noKernel_iff {n : Nat} : pick tables index unread op = .error (.noKernel n) ↔
    ∃ word, op.onWords = .ok word ∧
      (n = index ∧ Table.find? tables word unread = none ∨
        ∃ entry table, Table.find? tables word unread = some (entry, table) ∧
          entry.setup word = .error (.noKernel n)) := by
  constructor
  · intro h
    rw [pick] at h
    split at h
    · rename_i e he
      obtain rfl := Op.onWords_eq_error he
      cases h
    rename_i word hword
    refine ⟨word, hword, ?_⟩
    split at h
    · rename_i hfind
      cases h
      exact .inl ⟨rfl, hfind⟩
    rename_i entry table hfind
    refine .inr ⟨entry, table, hfind, ?_⟩
    cases hsetup : entry.setup word with
    | error e =>
      rw [hsetup] at h
      cases h
      rfl
    | ok k =>
      rw [hsetup] at h
      cases h
  · rintro ⟨word, hword, ⟨rfl, hfind⟩ | ⟨entry, table, hfind, hsetup⟩⟩
    · simp only [pick, hword, hfind]
    · simp only [pick, hword, hfind, hsetup]
      rfl

end Pick

/-! ## 2. All operations -/

/-- The components that may be undefined before the operation at place `i`: those that nothing reads of
the operation before it, and `unread` before the first one. -/
def unreadAt (unread : Quad Bool) (ops : List Op) : Nat → Quad Bool
  | 0 => unread
  | i + 1 => (ops[i]?.map fun op => op.info.unused).getD (Quad.const true)

theorem unreadAt_cons (unread : Quad Bool) (op : Op) (ops : List Op) (i : Nat) :
    unreadAt unread (op :: ops) (i + 1) = unreadAt op.info.unused ops i := by
  cases i with
  | zero => rfl
  | succ i => rfl

/-- The choice for the operation at place `i` of a list that starts at place `index`. -/
def pickAt (tables : List Table) (index : Nat) (unread : Quad Bool) (ops : List Op) (i : Nat) :
    Option (Except CompileError Pick) :=
  ops[i]?.map (pick tables (index + i) (unreadAt unread ops i))

theorem pickAt_cons (tables : List Table) (index : Nat) (unread : Quad Bool) (op : Op)
    (ops : List Op) (i : Nat) :
    pickAt tables index unread (op :: ops) (i + 1) =
      pickAt tables (index + 1) op.info.unused ops i := by
  rw [pickAt, pickAt, List.getElem?_cons_succ, unreadAt_cons, Nat.add_right_comm, Nat.add_assoc]

/-- The chain with the kernels of a list of choices. -/
def extendAll (chain : Chain) (picks : List Pick) : Chain where
  links := chain.links ++ picks.map Pick.kernel
  needs := (picks.map fun p => p.table.needs).foldl CpuSet.union chain.needs
  readMargin := (picks.map fun p => p.entry.readMargin).foldl max chain.readMargin
  writeMargin := (picks.map fun p => p.entry.writeMargin).foldl max chain.writeMargin

theorem extendAll_nil (chain : Chain) : chain.extendAll [] = chain := by
  simp only [extendAll, List.map_nil, List.foldl_nil, List.append_nil]

theorem extendAll_cons (chain : Chain) (p : Pick) (picks : List Pick) :
    chain.extendAll (p :: picks) = (chain.extend p).extendAll picks := by
  simp only [extendAll, extend, require, List.map_cons, List.foldl_cons, List.append_assoc,
    List.singleton_append]

theorem length_extend (chain : Chain) (p : Pick) :
    (chain.extend p).links.length = chain.links.length + 1 := by
  rw [extend, require, List.length_append, List.length_singleton]

section Lists

variable {tables : List Table} {index : Nat} {unread : Quad Bool} {chain : Chain}

/-- **Linking succeeds** exactly if every operation is taken up and there is room for all of them. -/
theorem linkFrom_eq_ok_iff {ops : List Op} {chain' : Chain} (hlen : chain.links.length ≤ maxLength) :
    (linkFrom tables index unread chain ops).2 = .ok chain' ↔
      chain.links.length + ops.length ≤ maxLength ∧ ∃ picks : List Pick,
        picks.length = ops.length ∧
        (∀ i p, picks[i]? = some p → pickAt tables index unread ops i = some (.ok p)) ∧
        chain' = chain.extendAll picks := by
  induction ops generalizing index unread chain with
  | nil =>
    constructor
    · intro h
      cases h
      refine ⟨hlen, [], rfl, fun i p h => ?_, (extendAll_nil _).symm⟩
      cases h
    · rintro ⟨-, picks, hpicks, -, rfl⟩
      obtain rfl := List.length_eq_zero_iff.mp hpicks
      rw [extendAll_nil]
      rfl
  | cons op ops ih =>
    rw [linkFrom_cons, List.length_cons]
    constructor
    · intro h
      cases hpick : pick tables index unread op with
      | error e =>
        rw [hpick] at h
        cases h
      | ok p =>
        by_cases hroom : chain.links.length < maxLength
        · rw [hpick] at h
          have h := (if_pos hroom).symm.trans h
          rw [ih (by rw [length_extend]; exact hroom), length_extend] at h
          obtain ⟨hfits, picks, hpicks, htaken, rfl⟩ := h
          refine ⟨by omega, p :: picks, by rw [List.length_cons, hpicks], fun i q hq => ?_,
            (extendAll_cons _ _ _).symm⟩
          cases i with
          | zero =>
            cases hq
            exact congrArg some hpick
          | succ i =>
            rw [pickAt_cons]
            exact htaken i q hq
        · rw [hpick] at h
          cases (if_neg hroom).symm.trans h
    · rintro ⟨hfits, picks, hpicks, htaken, rfl⟩
      obtain ⟨p, picks, rfl⟩ := List.exists_cons_of_length_eq_add_one hpicks
      have hpick : pick tables index unread op = .ok p := Option.some.inj (htaken 0 p rfl)
      have hroom : chain.links.length < maxLength := by omega
      rw [hpick]
      refine (if_pos hroom).trans ((ih (by rw [length_extend]; exact hroom)).mpr ?_)
      rw [length_extend]
      refine ⟨by omega, picks, Nat.succ.inj hpicks, fun i q hq => ?_, extendAll_cons _ _ _⟩
      rw [← pickAt_cons]
      exact htaken (i + 1) q hq

/-- **Linking fails** at the first operation that is not taken up, or that there is no room for. -/
theorem linkFrom_eq_error_iff {ops : List Op} {e : CompileError}
    (hlen : chain.links.length ≤ maxLength) :
    (linkFrom tables index unread chain ops).2 = .error e ↔
      ∃ i, chain.links.length + i ≤ maxLength ∧
        (∀ j, j < i → ∃ p, pickAt tables index unread ops j = some (.ok p)) ∧
        (pickAt tables index unread ops i = some (.error e) ∨
          (∃ p, pickAt tables index unread ops i = some (.ok p)) ∧
            chain.links.length + i = maxLength ∧ e = .unsupported .chainFull) := by
  induction ops generalizing index unread chain with
  | nil =>
    constructor
    · intro h
      cases h
    · rintro ⟨i, -, -, h | ⟨⟨p, h⟩, -⟩⟩
      · cases h
      · cases h
  | cons op ops ih =>
    rw [linkFrom_cons]
    constructor
    · intro h
      cases hpick : pick tables index unread op with
      | error e' =>
        rw [hpick] at h
        cases h
        exact ⟨0, hlen, fun j hj => absurd hj (Nat.not_lt_zero j), .inl (congrArg some hpick)⟩
      | ok p =>
        have hfirst : pickAt tables index unread (op :: ops) 0 = some (.ok p) := congrArg some hpick
        by_cases hroom : chain.links.length < maxLength
        · rw [hpick] at h
          have h := (if_pos hroom).symm.trans h
          rw [ih (by rw [length_extend]; exact hroom), length_extend] at h
          obtain ⟨i, hfits, htaken, hfails⟩ := h
          refine ⟨i + 1, by omega, fun j hj => ?_, ?_⟩
          · cases j with
            | zero => exact ⟨p, hfirst⟩
            | succ j =>
              rw [pickAt_cons]
              exact htaken j (by omega)
          · rw [pickAt_cons]
            rcases hfails with hfails | ⟨hp, hfull, he⟩
            · exact .inl hfails
            · exact .inr ⟨hp, by omega, he⟩
        · rw [hpick] at h
          cases (if_neg hroom).symm.trans h
          exact ⟨0, hlen, fun j hj => absurd hj (Nat.not_lt_zero j),
            .inr ⟨⟨p, hfirst⟩, by omega, rfl⟩⟩
    · rintro ⟨i, hfits, htaken, hfails⟩
      cases i with
      | zero =>
        rcases hfails with hfails | ⟨⟨p, hp⟩, hfull, rfl⟩
        · rw [Option.some.inj (show some (pick tables index unread op) = _ from hfails)]
          rfl
        · rw [Option.some.inj (show some (pick tables index unread op) = _ from hp)]
          exact if_neg (by omega)
      | succ i =>
        obtain ⟨p, hp⟩ := htaken 0 (Nat.succ_pos i)
        have hroom : chain.links.length < maxLength := by omega
        rw [Option.some.inj (show some (pick tables index unread op) = _ from hp)]
        refine (if_pos hroom).trans ((ih (by rw [length_extend]; exact hroom)).mpr ?_)
        rw [length_extend]
        refine ⟨i, by omega, fun j hj => ?_, ?_⟩
        · rw [← pickAt_cons]
          exact htaken (j + 1) (by omega)
        · rw [← pickAt_cons]
          rcases hfails with hfails | ⟨hp, hfull, he⟩
          · exact .inl hfails
          · exact .inr ⟨hp, by omega, he⟩

end Lists

/-! ## 3. Programs -/

section Programs

variable (tables : List Table) (p : Program)

/-- The operation at place `i` is moved onto words, the tables have a best entry for it, and the set-up
of the entry gives a kernel. Before the first operation all components may be undefined, and before any
other those that nothing reads of the operation before it. -/
def TakenUp (i : Nat) (q : Pick) : Prop :=
  ∃ op word, p.ops[i]? = some op ∧ op.onWords = .ok word ∧
    Table.find? tables word (unreadAt (Quad.const true) p.ops i) = some (q.entry, q.table) ∧
    q.entry.setup word = .ok q.kernel

/-- The chain has one kernel per operation, each from what was chosen for it, and needs what all of
them need together. -/
structure LinkedBy (picks : List Pick) (chain : Chain) : Prop where
  room : p.ops.length ≤ 16
  length : picks.length = p.ops.length
  taken : ∀ i q, picks[i]? = some q → TakenUp tables p i q
  links : chain.links = picks.map Pick.kernel
  needs : chain.needs = (picks.map fun q => q.table.needs).foldl CpuSet.union CpuSet.none
  readMargin : chain.readMargin = (picks.map fun q => q.entry.readMargin).foldl max 0
  writeMargin : chain.writeMargin = (picks.map fun q => q.entry.writeMargin).foldl max 0

/-- The operation at place `index` is the first that no entry of the tables implements. All before it
are taken up. -/
structure FirstUnmatched (index : Nat) : Prop where
  room : index ≤ 16
  taken : ∀ i, i < index → ∃ q, TakenUp tables p i q
  unmatched : ∃ op word, p.ops[index]? = some op ∧ op.onWords = .ok word ∧
    Table.find? tables word (unreadAt (Quad.const true) p.ops index) = none

/-- The set-up of the entry that was found for the operation at place `i` answers with an error. All
before it are taken up. -/
structure SetupAnswers (i : Nat) (e : CompileError) : Prop where
  room : i ≤ 16
  taken : ∀ j, j < i → ∃ q, TakenUp tables p j q
  answers : ∃ op word entry table, p.ops[i]? = some op ∧ op.onWords = .ok word ∧
    Table.find? tables word (unreadAt (Quad.const true) p.ops i) = some (entry, table) ∧
    entry.setup word = .error e

end Programs

section Outcome

variable {tables : List Table} {p : Program} {i : Nat}

theorem pickAt_eq_ok_iff {q : Pick} :
    pickAt tables 0 (Quad.const true) p.ops i = some (.ok q) ↔ TakenUp tables p i q := by
  rw [pickAt, Option.map_eq_some_iff]
  simp only [pick_eq_ok_iff, TakenUp, exists_and_left]

theorem pickAt_eq_noKernel_iff {n : Nat} :
    pickAt tables 0 (Quad.const true) p.ops i = some (.error (.noKernel n)) ↔
      ∃ op word, p.ops[i]? = some op ∧ op.onWords = .ok word ∧
        (n = i ∧ Table.find? tables word (unreadAt (Quad.const true) p.ops i) = none ∨
          ∃ entry table,
            Table.find? tables word (unreadAt (Quad.const true) p.ops i) = some (entry, table) ∧
            entry.setup word = .error (.noKernel n)) := by
  rw [pickAt, Option.map_eq_some_iff]
  simp only [pick_eq_noKernel_iff, Nat.zero_add, exists_and_left]

/-- The tables of what is chosen can be used. -/
theorem contains_of_takenUp {cpu : CpuSet} {blockSize : Nat} {q : Pick}
    (h : TakenUp (usable tables cpu blockSize) p i q) : cpu.contains q.table.needs = true := by
  obtain ⟨op, word, -, -, hfind, -⟩ := h
  obtain ⟨hmem, -⟩ := Table.find?_eq_some hfind
  obtain ⟨htable, -⟩ := Table.mem_candidates.mp hmem
  exact (Bool.and_eq_true_iff.mp (List.mem_filter.mp htable).2).1

theorem contains_union (cpu a b : CpuSet) :
    cpu.contains (a.union b) = (cpu.contains a && cpu.contains b) := by
  simp only [CpuSet.contains, CpuSet.union]
  grind

theorem contains_foldl_union {cpu : CpuSet} {needs : List CpuSet}
    (hneeds : ∀ n ∈ needs, cpu.contains n = true) {start : CpuSet}
    (hstart : cpu.contains start = true) :
    cpu.contains (needs.foldl CpuSet.union start) = true := by
  induction needs generalizing start with
  | nil => exact hstart
  | cons n needs ih =>
    obtain ⟨hn, hneeds⟩ := List.forall_mem_cons.mp hneeds
    exact ih hneeds (by rw [contains_union, hstart, hn]; rfl)

section Usable

variable {cpu : CpuSet} {blockSize : Nat}

theorem length_empty_links : empty.links.length = 0 := rfl

/-- **A program is linked** exactly if each operation is taken up and there is room for all. -/
theorem link_eq_ok_iff {chain : Chain} : (link p tables cpu blockSize).2 = .ok chain ↔
    ∃ picks, LinkedBy (usable tables cpu blockSize) p picks chain := by
  rw [link, linkFrom_eq_ok_iff (show empty.links.length ≤ maxLength by decide), length_empty_links,
    Nat.zero_add]
  simp only [pickAt_eq_ok_iff]
  constructor
  · rintro ⟨hroom, picks, hlength, htaken, rfl⟩
    exact ⟨picks, hroom, hlength, htaken, rfl, rfl, rfl, rfl⟩
  · rintro ⟨picks, h⟩
    refine ⟨h.room, picks, h.length, h.taken, ?_⟩
    obtain ⟨links, needs, readMargin, writeMargin⟩ := chain
    obtain ⟨-, -, -, rfl, rfl, rfl, rfl⟩ := h
    rfl

/-- What a chain needs is available. -/
theorem LinkedBy.contains_needs {picks : List Pick} {chain : Chain}
    (h : LinkedBy (usable tables cpu blockSize) p picks chain) : cpu.contains chain.needs = true := by
  rw [h.needs]
  refine contains_foldl_union (List.forall_mem_map.mpr fun q hq => ?_) (by cases cpu; rfl)
  obtain ⟨i, hi⟩ := List.getElem?_of_mem hq
  exact contains_of_takenUp (h.taken i q hi)

/-- **A missing kernel is reported** by the search or by a set-up function. -/
theorem link_eq_noKernel_iff {index : Nat} :
    (link p tables cpu blockSize).2 = .error (.noKernel index) ↔
      FirstUnmatched (usable tables cpu blockSize) p index ∨
        ∃ i, SetupAnswers (usable tables cpu blockSize) p i (.noKernel index) := by
  rw [link, linkFrom_eq_error_iff (show empty.links.length ≤ maxLength by decide)]
  simp only [length_empty_links, Nat.zero_add, pickAt_eq_ok_iff, pickAt_eq_noKernel_iff]
  constructor
  · rintro ⟨i, hroom, htaken, ⟨op, word, hop, hword, ⟨rfl, hnone⟩ | ⟨entry, table, hfind, hsetup⟩⟩ |
      ⟨-, -, hfull⟩⟩
    · exact .inl ⟨hroom, htaken, op, word, hop, hword, hnone⟩
    · exact .inr ⟨i, hroom, htaken, op, word, entry, table, hop, hword, hfind, hsetup⟩
    · cases hfull
  · rintro (⟨hroom, htaken, op, word, hop, hword, hnone⟩ |
      ⟨i, hroom, htaken, op, word, entry, table, hop, hword, hfind, hsetup⟩)
    · exact ⟨index, hroom, htaken, .inl ⟨op, word, hop, hword, .inl ⟨rfl, hnone⟩⟩⟩
    · exact ⟨i, hroom, htaken, .inl ⟨op, word, hop, hword, .inr ⟨entry, table, hfind, hsetup⟩⟩⟩

/-- The set-up function that answers is that of an entry of the tables. -/
theorem SetupAnswers.exists_entry {e : CompileError}
    (h : SetupAnswers (usable tables cpu blockSize) p i e) :
    ∃ t ∈ tables, ∃ entry ∈ t.entries, ∃ op, entry.setup op = .error e := by
  obtain ⟨op, word, entry, table, -, -, hfind, hsetup⟩ := h.answers
  obtain ⟨hmem, -⟩ := Table.find?_eq_some hfind
  obtain ⟨htable, hentry⟩ := Table.mem_candidates.mp hmem
  exact ⟨table, (List.mem_filter.mp htable).1, entry, hentry, word, hsetup⟩

end Usable

/-- **What linking a program comes to.** For every program, all tables with any set-up functions, all
processor features and block sizes: linking gives a chain exactly if there are at most 16 operations
and each of them is taken up by the usable tables. The chain has their kernels in order, needs the
features of their tables, which are available, and the greatest of their margins. A missing kernel is
reported for the first operation without one, where all before it, at most 16, are taken up; or it is
what a set-up function answers. So where none answers this, it is the former exactly. -/
theorem link_outcome (p : Program) (tables : List Table) (cpu : CpuSet) (blockSize : Nat) :
    (∀ chain, (link p tables cpu blockSize).2 = .ok chain ↔
      ∃ picks, LinkedBy (usable tables cpu blockSize) p picks chain) ∧
    (∀ chain, (link p tables cpu blockSize).2 = .ok chain → cpu.contains chain.needs = true) ∧
    (∀ index, (link p tables cpu blockSize).2 = .error (.noKernel index) ↔
      FirstUnmatched (usable tables cpu blockSize) p index ∨
        ∃ i, SetupAnswers (usable tables cpu blockSize) p i (.noKernel index)) ∧
    ((∀ t ∈ tables, ∀ e ∈ t.entries, ∀ op n, e.setup op ≠ .error (.noKernel n)) →
      ∀ index, (link p tables cpu blockSize).2 = .error (.noKernel index) ↔
        FirstUnmatched (usable tables cpu blockSize) p index) := by
  refine ⟨fun _ => link_eq_ok_iff, fun chain h => ?_, fun _ => link_eq_noKernel_iff,
    fun hsetup index => ?_⟩
  · obtain ⟨picks, hlinked⟩ := link_eq_ok_iff.mp h
    exact hlinked.contains_needs
  · rw [link_eq_noKernel_iff, or_iff_left]
    rintro ⟨i, hanswers⟩
    obtain ⟨t, ht, entry, hentry, op, hop⟩ := hanswers.exists_entry
    exact hsetup t ht entry hentry op index hop

end Outcome

/-- Three interleaved bytes in reverse order. -/
def reversal : Program :=
  .ofOps [.ofKind .u8 (.read ⟨3, true, 0⟩), .ofKind .u8 (.swizzle ⟨⟨2, 1, 0, 3⟩⟩),
    .ofKind .u8 (.write ⟨3, true, 0⟩)]

/-- The transfer of three interleaved bytes, each with a byte of margin. -/
def transfers : Table where
  name := "transfers"
  needs := ⟨true, false⟩
  blockSize := 32
  entries := [
    { name := "load", verb := .read, elem := .u8, params := .layout ⟨3, true, 0⟩, readMargin := 1,
      setup := Setup.fixed .loadTriples },
    { name := "store", verb := .write, elem := .u8, params := .layout ⟨3, true, 0⟩, writeMargin := 1,
      setup := Setup.fixed .storeTriples }]

/-- Swizzles, on another processor feature and for blocks of any size. -/
def swizzles : Table where
  name := "swizzles"
  needs := ⟨false, true⟩
  blockSize := 0
  entries := [{ name := "any", verb := .swizzle, elem := .u32, general := true, setup := Setup.swizzle }]

theorem swizzle_ne_noKernel (op : Op) (n : Nat) : Setup.swizzle op ≠ .error (.noKernel n) := by
  intro h
  unfold Setup.swizzle at h
  split at h
  · cases h
  · cases h

/-- With both features there is a chain, which needs both and a margin on either side. Without the second
one no usable table has a kernel for the swizzle, and that is what is reported. -/
theorem reversal_link_outcome :
    (∃ picks chain, LinkedBy (usable [transfers, swizzles] ⟨true, true⟩ 32) reversal picks chain ∧
      chain.links.length = 3 ∧ chain.needs = ⟨true, true⟩ ∧ chain.readMargin = 1 ∧
      chain.writeMargin = 1) ∧
    (link reversal [transfers, swizzles] ⟨true, false⟩ 32).2 = .error (.noKernel 1) := by
  obtain ⟨hok, -⟩ := link_outcome reversal [transfers, swizzles] ⟨true, true⟩ 32
  obtain ⟨-, -, -, hmissing⟩ := link_outcome reversal [transfers, swizzles] ⟨true, false⟩ 32
  constructor
  · obtain ⟨picks, hpicks⟩ := (hok ⟨[.loadTriples, .compute (.swizzle ⟨2, 1, 0, 3⟩), .storeTriples],
      ⟨true, true⟩, 1, 1⟩).mp rfl
    exact ⟨picks, _, hpicks, rfl, rfl, rfl, rfl⟩
  · refine (hmissing ?_ 1).mpr ⟨by decide, fun i hi => ?_, _, _, rfl, rfl, rfl⟩
    · simp only [List.forall_mem_cons, transfers, swizzles]
      refine ⟨⟨fun op n h => ?_, fun op n h => ?_, List.forall_mem_nil _⟩,
        ⟨fun op n h => swizzle_ne_noKernel op n h, List.forall_mem_nil _⟩, List.forall_mem_nil _⟩
      · cases h
      · cases h
    · obtain rfl : i = 0 := by omega
      exact ⟨⟨_, _, _⟩, _, _, rfl, rfl, rfl, rfl⟩

/-- A kernel whose set-up misses one for another operation. -/
def misleading : Table where
  name := "misleading"
  needs := CpuSet.none
  blockSize := 0
  entries := [
    { name := "load", verb := .read, elem := .u8, general := true,
      setup := fun _ => .error (.noKernel 5) }]

/-- **A missing kernel may be reported for an operation that does not exist**, where a set-up function
answers so. -/
theorem misleading_setup_reported :
    (link reversal [misleading] CpuSet.none 32).2 = .error (.noKernel 5) ∧ reversal.ops.length = 3 ∧
      ¬FirstUnmatched (usable [misleading] CpuSet.none 32) reversal 5 := by
  refine ⟨rfl, rfl, fun h => ?_⟩
  obtain ⟨op, -, hop, -⟩ := h.unmatched
  cases hop

end Chain

end PixelConv
