import LangGraph.Savers.Base

/- Stage 1 of `PostgresSaver.get_delta_channel_history` (checkpoint-postgres):
   the parent chain of every channel, found over pages of checkpoints.

   Correspondence (source ↔ Lean):
     a stage-1 row, with columns `ver_i`, `hs_i`    ↔ `Stage1Row V`
     `parent_of`, `ver_by_i_by_cid`, `hs_by_i_by_cid` ↔ `Stage1Walk.seen` (one mapping: the
                                                       three are filled row by row)
     `_ingest_stage1_page`, `_try_advance_walks`    ↔ `ingestStage1Page`, `tryAdvanceWalks`
     the paging loop                                ↔ `pagedLoop`
   `ChannelWalk` relates the walk of a channel after some pages to the plain
   walk over all rows; it holds once the walk was entered at the target's parent.
   The walks are entered after the first page, so `pagedWalk` is the plain walk
   exactly when that page has the target (`pagedWalk_eq_plainWalk_iff`). -/
namespace LangGraph

/-- What the stage-1 query selects of a checkpoint: its parent and, for each
    channel, the version (`ver_i`) and whether `channel_values` has the channel
    (`hs_i`). -/
structure Stage1Row (V : Type) where
  parentId : Option String
  ver : String → Option V
  hs : String → Bool

structure Stage1Walk (V : Type) where
  seen : OrdDict String (Stage1Row V)
  chainByCh : OrdDict String (List String)
  seedVerByCh : OrdDict String (Option V)
  walkCursorByCh : OrdDict String (Option String)
  seeded : List String

namespace Stage1Walk
variable {V : Type}

def init (channels : List String) : Stage1Walk V :=
  ⟨∅, OrdDict.tabulate channels fun _ => [], OrdDict.tabulate channels fun _ => none, ∅, []⟩

/-- `_ingest_stage1_page` -/
def ingestStage1Page (page : List (String × Stage1Row V)) (st : Stage1Walk V) : Stage1Walk V :=
  { st with seen := st.seen.setAll page }

/-- Where the `while cur_cid is not None` loop of one channel ends: the chain,
    the cursor, and the version of the seed when it met one. -/
structure Advance (V : Type) where
  chain : List String
  cursor : Option String
  seedVer : Option (Option V)

def advanceCursor (seen : OrdDict String (Stage1Row V)) (ch : String) :
    Nat → Option String → List String → Advance V
  | 0, cur, chain => ⟨chain, cur, none⟩
  | _ + 1, none, chain => ⟨chain, none, none⟩
  | n + 1, some cur, chain =>
    match seen.get? cur with
    | none => ⟨chain, some cur, none⟩ -- need more pages to continue this walk
    | some row =>
      if row.hs ch then ⟨chain ++ [cur], none, some (row.ver ch)⟩
      else advanceCursor seen ch n row.parentId (chain ++ [cur])

/-- The cursor of a channel; on first entry, the parent of the target. -/
def cursorOf (target : String) (st : Stage1Walk V) (ch : String) : Option String :=
  (st.walkCursorByCh.get? ch).getD ((st.seen.get? target).bind (·.parentId))

def advanceChannel (target : String) (st : Stage1Walk V) (ch : String) : Stage1Walk V :=
  if st.seeded.contains ch then st
  else
    let r := advanceCursor st.seen ch (st.seen.keys.length + 1) (cursorOf target st ch)
      (st.chainByCh.getD ch [])
    { st with
      chainByCh := st.chainByCh.set ch r.chain
      walkCursorByCh := st.walkCursorByCh.set ch r.cursor
      seedVerByCh := match r.seedVer with
        | some ver => st.seedVerByCh.set ch ver
        | none => st.seedVerByCh
      seeded := match r.seedVer with
        | some _ => ch :: st.seeded
        | none => st.seeded }

/-- `_try_advance_walks` -/
def tryAdvanceWalks (target : String) (channels : List String) (st : Stage1Walk V) :
    Stage1Walk V :=
  channels.foldl (advanceChannel target) st

/-- The rows a page may still bring: all of them, or those below the cursor. -/
def unfetched (rows : OrdDict String (Stage1Row V)) (cursor : Option String) :
    List (String × Stage1Row V) :=
  rows.entries.filter fun e => cursor.all (e.1 < ·)

/-- `… AND checkpoint_id < cursor ORDER BY checkpoint_id DESC LIMIT page_size` -/
def fetchPage (rows : OrdDict String (Stage1Row V)) (cursor : Option String) (pageSize : Nat) :
    List (String × Stage1Row V) :=
  (SortBy.sortBy (fun e => e.1) (unfetched rows cursor)).reverse.take pageSize

/-- The `while True` loop of stage 1. -/
def pagedLoop (rows : OrdDict String (Stage1Row V)) (pageSize : Nat) (target : String)
    (channels : List String) : Nat → Option String → Stage1Walk V → Stage1Walk V
  | 0, _, st => st
  | n + 1, cursor, st =>
    let page := fetchPage rows cursor pageSize
    if page.isEmpty then st
    else
      let st := tryAdvanceWalks target channels (ingestStage1Page page st)
      if st.seeded.length = channels.length ∨ page.length < pageSize then st
      else pagedLoop rows pageSize target channels n (page.getLast?.map (·.1)) st

/-- For every channel the chain of ancestors, and the version of its seed when
    there is one. -/
def result (channels : List String) (st : Stage1Walk V) :
    OrdDict String (List String × Option (Option V)) :=
  OrdDict.tabulate channels fun ch =>
    (st.chainByCh.getD ch [],
      if st.seeded.contains ch then some (st.seedVerByCh.getD ch none) else none)

end Stage1Walk

/-- Stage 1, page by page. -/
def pagedWalk {V : Type} (rows : OrdDict String (Stage1Row V)) (pageSize : Nat) (target : String)
    (channels : List String) : OrdDict String (List String × Option (Option V)) :=
  (Stage1Walk.pagedLoop rows pageSize target channels (rows.keys.length + 1) none
    (Stage1Walk.init channels)).result channels

/-- The version of a channel at a row that has a value of the channel. -/
def stage1Value {V : Type} (ch : String) (e : String × Stage1Row V) : Option (Option V) :=
  if e.2.hs ch then some (e.2.ver ch) else none

/-- The walk along `parent_checkpoint_id` from a cursor, over all rows at once. -/
def stage1Rows {V : Type} (rows : OrdDict String (Stage1Row V)) (cursor : Option String) :
    List (String × Stage1Row V) :=
  Lineage.walk rows.get? (·.parentId) (rows.keys.length + 1) cursor

def stage1Chain {V : Type} (rows : OrdDict String (Stage1Row V)) (ch : String)
    (cursor : Option String) : List String :=
  (Lineage.upto (stage1Value ch) (stage1Rows rows cursor)).map Prod.fst

def stage1Seed {V : Type} (rows : OrdDict String (Stage1Row V)) (ch : String)
    (cursor : Option String) : Option (Option V) :=
  (Lineage.collect (stage1Value ch) (fun _ => ([] : List Unit)) (stage1Rows rows cursor)).1

/-- A plain walk from the target over all rows at once. -/
def plainWalk {V : Type} (rows : OrdDict String (Stage1Row V)) (target : String)
    (channels : List String) : OrdDict String (List String × Option (Option V)) :=
  let cursor := (rows.get? target).bind (·.parentId)
  OrdDict.tabulate channels fun ch => (stage1Chain rows ch cursor, stage1Seed rows ch cursor)

/-! ## Paging and the plain walk -/

section Paging
variable {V : Type} {rows : OrdDict String (Stage1Row V)}

open Stage1Walk

theorem stage1Rows_some (hacyc : Lineage.Acyclic rows.get? Stage1Row.parentId) {k : String}
    {r : Stage1Row V} (h : rows.get? k = some r) :
    stage1Rows rows (some k) = (k, r) :: stage1Rows rows r.parentId :=
  Lineage.walk_some hacyc OrdDict.mem_keys_of_isSome h

theorem stage1Rows_missing {k : String} (h : rows.get? k = none) : stage1Rows rows (some k) = [] :=
  Lineage.walk_of_missing h _

/-- What the walk of one channel has found after some pages, and what is left of
    it, make up the plain walk. -/
structure AdvanceSpec (rows : OrdDict String (Stage1Row V)) (ch : String) (cur : Option String)
    (chain : List String) (r : Advance V) : Prop where
  found : ∀ ver, r.seedVer = some ver →
    r.chain = chain ++ stage1Chain rows ch cur ∧ stage1Seed rows ch cur = some ver
  going : r.seedVer = none →
    r.chain ++ stage1Chain rows ch r.cursor = chain ++ stage1Chain rows ch cur ∧
      stage1Seed rows ch r.cursor = stage1Seed rows ch cur

theorem advanceCursor_spec (hacyc : Lineage.Acyclic rows.get? Stage1Row.parentId)
    {seen : OrdDict String (Stage1Row V)}
    (hseen : ∀ k r, seen.get? k = some r → rows.get? k = some r) (ch : String) :
    ∀ (n : Nat) (cur : Option String) (chain : List String),
      AdvanceSpec rows ch cur chain (advanceCursor seen ch n cur chain)
  | 0, _, _ => ⟨by simp [advanceCursor], by simp [advanceCursor]⟩
  | _ + 1, none, _ => ⟨by simp [advanceCursor], by simp [advanceCursor]⟩
  | n + 1, some cur, chain => by
    cases h : seen.get? cur with
    | none => exact ⟨by simp [advanceCursor, h], by simp [advanceCursor, h]⟩
    | some row =>
      have hrow := stage1Rows_some hacyc (hseen cur row h)
      by_cases hhs : row.hs ch = true
      · have hv : stage1Value ch (cur, row) = some (row.ver ch) := by simp [stage1Value, hhs]
        refine ⟨?_, by simp [advanceCursor, h, hhs]⟩
        intro ver hver
        simp only [advanceCursor, h, hhs, if_true, Option.some.injEq] at hver ⊢
        refine ⟨?_, ?_⟩
        · simp [stage1Chain, hrow, Lineage.upto, hv]
        · rw [stage1Seed, hrow, Lineage.collect_cons_some hv, ← hver]
      · have hv : stage1Value ch (cur, row) = none := by simp [stage1Value, hhs]
        have hchain : stage1Chain rows ch (some cur) = cur :: stage1Chain rows ch row.parentId := by
          simp [stage1Chain, hrow, Lineage.upto, hv]
        have hseed : stage1Seed rows ch (some cur) = stage1Seed rows ch row.parentId := by
          rw [stage1Seed, hrow, Lineage.collect_cons_none hv, stage1Seed]
        have ih := advanceCursor_spec hacyc hseen ch n row.parentId (chain ++ [cur])
        have hstep : advanceCursor seen ch (n + 1) (some cur) chain =
            advanceCursor seen ch n row.parentId (chain ++ [cur]) := by
          simp [advanceCursor, h, hhs]
        rw [hstep]
        refine ⟨?_, ?_⟩
        · intro ver hver
          obtain ⟨h₁, h₂⟩ := ih.found ver hver
          exact ⟨by rw [h₁, hchain]; simp, hseed.trans h₂⟩
        · intro hnone
          obtain ⟨h₁, h₂⟩ := ih.going hnone
          exact ⟨by rw [h₁, hchain]; simp, h₂.trans hseed.symm⟩

/-- A walk that stops without a seed is at a root, or waits for a later page. -/
theorem advanceCursor_waits {seen : OrdDict String (Stage1Row V)} (ch : String) :
    ∀ {n : Nat} {cur : Option String} (chain : List String),
      (Lineage.walk seen.get? Stage1Row.parentId n cur).length < n →
      (advanceCursor seen ch n cur chain).seedVer = none →
      ∀ k, (advanceCursor seen ch n cur chain).cursor = some k → seen.get? k = none
  | 0, _, _, h, _, _, _ => by simp at h
  | _ + 1, none, _, _, _, k, hk => by simp [advanceCursor] at hk
  | n + 1, some cur, chain, h, hs, k, hk => by
    cases hc : seen.get? cur with
    | none =>
      simp only [advanceCursor, hc, Option.some.injEq] at hk
      rw [← hk]
      exact hc
    | some row =>
      rw [Lineage.walk_succ_some hc, List.length_cons] at h
      by_cases hhs : row.hs ch = true
      · simp [advanceCursor, hc, hhs] at hs
      · have hstep : advanceCursor seen ch (n + 1) (some cur) chain =
            advanceCursor seen ch n row.parentId (chain ++ [cur]) := by
          simp [advanceCursor, hc, hhs]
        rw [hstep] at hs hk
        exact advanceCursor_waits ch _ (Nat.lt_of_succ_lt_succ h) hs k hk

/-- The walk of `ch` so far, against the plain walk from `start`. -/
structure ChannelWalk (rows : OrdDict String (Stage1Row V)) (target : String)
    (start : Option String) (ch : String) (st : Stage1Walk V) : Prop where
  seeded : ch ∈ st.seeded → st.chainByCh.getD ch [] = stage1Chain rows ch start ∧
    stage1Seed rows ch start = some (st.seedVerByCh.getD ch none)
  going : ch ∉ st.seeded →
    st.chainByCh.getD ch [] ++ stage1Chain rows ch (cursorOf target st ch) =
        stage1Chain rows ch start ∧
      stage1Seed rows ch (cursorOf target st ch) = stage1Seed rows ch start

/-- The walk of `ch` has its seed, or stands at a root or before an unseen row. -/
def Waits (ch : String) (st : Stage1Walk V) : Prop :=
  ch ∈ st.seeded ∨
    ∃ c, st.walkCursorByCh.get? ch = some c ∧ ∀ k, c = some k → st.seen.get? k = none

section Advance
variable {target ch : String} {start : Option String} {st : Stage1Walk V}

@[simp] theorem seen_advanceChannel (ch' : String) :
    (advanceChannel target st ch').seen = st.seen := by
  unfold advanceChannel
  split <;> rfl

/-- Advancing one channel does not touch another. -/
theorem advanceChannel_of_ne (target : String) (st : Stage1Walk V) {ch' : String} (h : ch ≠ ch') :
    (advanceChannel target st ch').chainByCh.getD ch [] = st.chainByCh.getD ch [] ∧
      (advanceChannel target st ch').seedVerByCh.getD ch none = st.seedVerByCh.getD ch none ∧
      (advanceChannel target st ch').walkCursorByCh.get? ch = st.walkCursorByCh.get? ch ∧
      (ch ∈ (advanceChannel target st ch').seeded ↔ ch ∈ st.seeded) := by
  unfold advanceChannel
  split
  · exact ⟨rfl, rfl, rfl, Iff.rfl⟩
  · refine ⟨?_, ?_, OrdDict.get?_set_of_ne h _ _, ?_⟩
    · simp only [OrdDict.getD, OrdDict.get?_set_of_ne h]
    · simp only [OrdDict.getD]
      split
      · rw [OrdDict.get?_set_of_ne h]
      · rfl
    · simp only
      split
      · simp [h]
      · rfl

theorem channelWalk_advance (hacyc : Lineage.Acyclic rows.get? Stage1Row.parentId)
    (hseen : ∀ k r, st.seen.get? k = some r → rows.get? k = some r) (ch' : String)
    (hinv : ChannelWalk rows target start ch st) :
    ChannelWalk rows target start ch (advanceChannel target st ch') := by
  by_cases h : ch = ch'
  · subst h
    by_cases hs : ch ∈ st.seeded
    · unfold advanceChannel
      rw [if_pos (by simpa using hs)]
      exact hinv
    · obtain ⟨hchain, hseed⟩ := hinv.going hs
      have hspec := advanceCursor_spec hacyc hseen ch (st.seen.keys.length + 1)
        (cursorOf target st ch) (st.chainByCh.getD ch [])
      unfold advanceChannel
      rw [if_neg (by simpa using hs)]
      generalize advanceCursor st.seen ch (st.seen.keys.length + 1) (cursorOf target st ch)
        (st.chainByCh.getD ch []) = r at hspec
      cases hv : r.seedVer with
      | some ver =>
        obtain ⟨h₁, h₂⟩ := hspec.found ver hv
        refine ⟨fun _ => ?_, by simp [hv]⟩
        simp only [hv, OrdDict.getD, OrdDict.get?_set_self, Option.getD_some]
        exact ⟨h₁.trans hchain, hseed.symm.trans h₂⟩
      | none =>
        obtain ⟨h₁, h₂⟩ := hspec.going hv
        refine ⟨by simp [hv, hs], fun _ => ?_⟩
        simp only [OrdDict.getD, OrdDict.get?_set_self, Option.getD_some, cursorOf]
        exact ⟨h₁.trans hchain, h₂.trans hseed⟩
  · obtain ⟨h₁, h₂, h₃, h₄⟩ := advanceChannel_of_ne target st h
    have hcur : cursorOf target (advanceChannel target st ch') ch = cursorOf target st ch := by
      simp only [cursorOf, h₃, seen_advanceChannel]
    refine ⟨?_, ?_⟩
    · intro hs
      rw [h₁, h₂]
      exact hinv.seeded (h₄.mp hs)
    · intro hs
      rw [h₁, hcur]
      exact hinv.going fun hm => hs (h₄.mpr hm)

theorem waits_advance_self (hacyc : Lineage.Acyclic st.seen.get? Stage1Row.parentId) :
    Waits ch (advanceChannel target st ch) := by
  by_cases hs : ch ∈ st.seeded
  · left
    unfold advanceChannel
    rw [if_pos (by simpa using hs)]
    exact hs
  · have hlen := Lineage.length_walk_le hacyc OrdDict.mem_keys_of_isSome
      (st.seen.keys.length + 1) (cursorOf target st ch)
    have hwait := advanceCursor_waits ch (st.chainByCh.getD ch [])
      (Nat.lt_succ_of_le hlen)
    unfold Waits advanceChannel
    rw [if_neg (by simpa using hs)]
    generalize advanceCursor st.seen ch (st.seen.keys.length + 1) (cursorOf target st ch)
      (st.chainByCh.getD ch []) = r at hwait
    cases hv : r.seedVer with
    | some ver => simp [hv]
    | none => exact Or.inr ⟨r.cursor, by simp, hwait hv⟩

theorem waits_advance {ch' : String} (hacyc : Lineage.Acyclic st.seen.get? Stage1Row.parentId)
    (h : Waits ch st) : Waits ch (advanceChannel target st ch') := by
  by_cases hc : ch = ch'
  · subst hc
    exact waits_advance_self hacyc
  · obtain ⟨-, -, h₃, h₄⟩ := advanceChannel_of_ne target _ hc
    unfold Waits
    rw [h₃, h₄, seen_advanceChannel]
    exact h

theorem seen_tryAdvanceWalks : ∀ (channels : List String) (st : Stage1Walk V),
    (tryAdvanceWalks target channels st).seen = st.seen
  | [], _ => rfl
  | c :: channels, _ => (seen_tryAdvanceWalks channels _).trans (seen_advanceChannel c)

theorem tryAdvanceWalks_spec (hacyc : Lineage.Acyclic rows.get? Stage1Row.parentId) :
    ∀ (channels : List String) (st : Stage1Walk V),
      Lineage.Acyclic st.seen.get? Stage1Row.parentId →
      (∀ k r, st.seen.get? k = some r → rows.get? k = some r) →
      (ChannelWalk rows target start ch st →
          ChannelWalk rows target start ch (tryAdvanceWalks target channels st)) ∧
        (Waits ch st ∨ ch ∈ channels → Waits ch (tryAdvanceWalks target channels st))
  | [], _, _, _ => ⟨id, fun h => h.resolve_right (by simp)⟩
  | c :: channels, st, hacyc', hseen => by
    have hseen_c : (advanceChannel target st c).seen = st.seen := seen_advanceChannel c
    obtain ⟨h₂, h₃⟩ := tryAdvanceWalks_spec hacyc channels (advanceChannel target st c)
      (by rw [hseen_c]; exact hacyc') (by rw [hseen_c]; exact hseen)
    refine ⟨?_, ?_⟩
    · intro hinv
      exact h₂ (channelWalk_advance hacyc hseen c hinv)
    · intro h
      refine h₃ ?_
      rcases h with h | h
      · exact Or.inl (waits_advance hacyc' h)
      · rcases List.mem_cons.mp h with rfl | h
        · exact Or.inl (waits_advance_self hacyc')
        · exact Or.inr h

/-- The seeded channels are distinct and among those requested. -/
def SeededAmong (channels : List String) (st : Stage1Walk V) : Prop :=
  st.seeded.Nodup ∧ st.seeded ⊆ channels

theorem seededAmong_advance {channels : List String} {c : String} (hc : c ∈ channels)
    (h : SeededAmong channels st) : SeededAmong channels (advanceChannel target st c) := by
  unfold advanceChannel
  split
  · exact h
  · rename_i hs
    unfold SeededAmong
    simp only
    split
    · refine ⟨List.nodup_cons.mpr ⟨by simpa using hs, h.1⟩, ?_⟩
      exact List.cons_subset.mpr ⟨hc, h.2⟩
    · exact h

theorem seededAmong_tryAdvance {channels : List String} : ∀ (cs : List String)
    (st : Stage1Walk V), cs ⊆ channels → SeededAmong channels st →
    SeededAmong channels (tryAdvanceWalks target cs st)
  | [], _, _, h => h
  | c :: cs, st, hsub, h => by
    obtain ⟨hc, hcs⟩ := List.cons_subset.mp hsub
    exact seededAmong_tryAdvance cs (advanceChannel target st c) hcs (seededAmong_advance hc h)

/-- `len(seeded) == len(channels)` means that every channel is seeded. -/
theorem mem_seeded_of_length {channels : List String} (h : SeededAmong channels st)
    (hlen : st.seeded.length = channels.length) : ∀ c ∈ channels, c ∈ st.seeded := by
  have hperm : st.seeded.Perm channels :=
    (List.subperm_of_subset h.1 h.2).perm_of_length_le (le_of_eq hlen.symm)
  intro c hc
  exact hperm.mem_iff.mpr hc

end Advance

/-- Links among fewer rows have no more cycles. -/
theorem acyclic_of_subset {seen : OrdDict String (Stage1Row V)}
    (hacyc : Lineage.Acyclic rows.get? Stage1Row.parentId)
    (hseen : ∀ k r, seen.get? k = some r → rows.get? k = some r) :
    Lineage.Acyclic seen.get? Stage1Row.parentId := by
  obtain ⟨rank, hrank⟩ := hacyc
  refine ⟨rank, ?_⟩
  intro k r p hk hp hl
  obtain ⟨r', hr'⟩ := Option.isSome_iff_exists.mp hl
  exact hrank k r p (hseen k r hk) hp (by rw [hseen p r' hr']; rfl)

/-- A channel whose walk waits while every row was seen is finished. -/
theorem channelWalk_done {target ch : String} {start : Option String} {st : Stage1Walk V}
    (hinv : ChannelWalk rows target start ch st)
    (h : ch ∈ st.seeded ∨ (Waits ch st ∧ ∀ k, st.seen.get? k = rows.get? k)) :
    (st.chainByCh.getD ch [],
        if st.seeded.contains ch then some (st.seedVerByCh.getD ch none) else none) =
      (stage1Chain rows ch start, stage1Seed rows ch start) := by
  by_cases hs : ch ∈ st.seeded
  · obtain ⟨h₁, h₂⟩ := hinv.seeded hs
    rw [if_pos (by simpa using hs), h₁, h₂]
  · obtain ⟨hwait, hall⟩ := h.resolve_left hs
    obtain ⟨c, hc, hunseen⟩ := hwait.resolve_left hs
    obtain ⟨h₁, h₂⟩ := hinv.going hs
    have hcur : cursorOf target st ch = c := by simp [cursorOf, hc]
    have hrows : stage1Rows rows c = [] := by
      cases c with
      | none => exact Lineage.walk_none _
      | some k => exact stage1Rows_missing (by rw [← hall]; exact hunseen k rfl)
    rw [hcur] at h₁ h₂
    rw [if_neg (by simpa using hs), ← h₁, ← h₂]
    simp [stage1Chain, stage1Seed, hrows, Lineage.upto]

/-! ## The pages -/

theorem fetchPage_sorted (rows : OrdDict String (Stage1Row V)) (cursor : Option String) :
    (SortBy.sortBy (fun e => e.1) (unfetched rows cursor)).reverse.Pairwise
      fun a b => b.1 < a.1 := by
  rw [List.pairwise_reverse]
  have hnd : ((unfetched rows cursor).map Prod.fst).Nodup :=
    rows.nodup.sublist (List.filter_sublist.map _)
  have hne := List.pairwise_map.mp (List.Perm.nodup_iff
    ((SortBy.perm_sortBy (fun e : String × Stage1Row V => e.1) (unfetched rows cursor)).map
      Prod.fst) |>.mpr hnd)
  exact (SortBy.pairwise_sortBy _ _).imp₂ (fun _ _ h hn => lt_of_le_of_ne h hn) hne

/-- A page takes the greatest of the rows left; the next cursor leaves the others. -/
theorem mem_page_or_unfetched (cursor : Option String) (pageSize : Nat) (last : String × Stage1Row V)
    (hlast : (fetchPage rows cursor pageSize).getLast? = some last) (e : String × Stage1Row V) :
    e ∈ unfetched rows (some last.1) ↔
      e ∈ unfetched rows cursor ∧ e ∉ fetchPage rows cursor pageSize := by
  have hsort := fetchPage_sorted rows cursor
  have hmem : ∀ x, x ∈ (SortBy.sortBy (fun e => e.1) (unfetched rows cursor)).reverse ↔
      x ∈ unfetched rows cursor := by simp
  unfold fetchPage at hlast ⊢
  generalize (SortBy.sortBy (fun e => e.1) (unfetched rows cursor)).reverse = l at hsort hmem hlast
  obtain ⟨init, hinit⟩ := List.getLast?_eq_some_iff.mp hlast
  have hl : l = (init ++ [last]) ++ l.drop pageSize := by
    rw [← hinit, List.take_append_drop]
  have hlast_mem : last ∈ unfetched rows cursor := (hmem last).mp (by rw [hl]; simp)
  have hsplit := hsort
  rw [hl] at hsplit
  obtain ⟨hpage, -, hcross⟩ := List.pairwise_append.mp hsplit
  constructor
  · intro he
    obtain ⟨he, hlt⟩ := List.mem_filter.mp he
    have hlt : e.1 < last.1 := by simpa using hlt
    have hcur : e ∈ unfetched rows cursor := by
      refine List.mem_filter.mpr ⟨he, ?_⟩
      have := (List.mem_filter.mp hlast_mem).2
      cases cursor with
      | none => rfl
      | some c => simpa using lt_trans hlt (by simpa using this)
    refine ⟨hcur, ?_⟩
    rw [hinit]
    intro hm
    rcases List.mem_append.mp hm with hm | hm
    · have := (List.pairwise_append.mp hpage).2.2 e hm last (List.mem_singleton_self _)
      exact lt_asymm hlt this
    · rw [List.mem_singleton.mp hm] at hlt
      exact lt_irrefl _ hlt
  · rintro ⟨hcur, hnot⟩
    have hel : e ∈ l := (hmem e).mpr hcur
    rw [hl] at hel
    rw [hinit] at hnot
    have hdrop := (List.mem_append.mp hel).resolve_left hnot
    have hlt : e.1 < last.1 := hcross last (by simp) e hdrop
    exact List.mem_filter.mpr ⟨(List.mem_filter.mp hcur).1, by simpa using hlt⟩

theorem mem_unfetched_of_mem_page {cursor : Option String} {pageSize : Nat}
    {e : String × Stage1Row V} (h : e ∈ fetchPage rows cursor pageSize) :
    e ∈ unfetched rows cursor := by
  have := List.mem_of_mem_take h
  simpa using this

/-- A short page is all that was left. -/
theorem mem_page_of_short {cursor : Option String} {pageSize : Nat}
    (h : (fetchPage rows cursor pageSize).length < pageSize) {e : String × Stage1Row V}
    (he : e ∈ unfetched rows cursor) : e ∈ fetchPage rows cursor pageSize := by
  unfold fetchPage at h ⊢
  rw [List.length_take] at h
  rw [List.take_of_length_le (by omega)]
  simpa using he

/-- `seen` holds the rows at or above the cursor. -/
def Fetched (rows : OrdDict String (Stage1Row V)) (cursor : Option String) (st : Stage1Walk V) :
    Prop :=
  ∀ k r, st.seen.get? k = some r ↔ rows.get? k = some r ∧ (k, r) ∉ unfetched rows cursor

theorem fetchPage_keys_nodup (cursor : Option String) (pageSize : Nat) :
    ((fetchPage rows cursor pageSize).map Prod.fst).Nodup := by
  have hpw := (fetchPage_sorted rows cursor).sublist (List.take_sublist pageSize _)
  exact List.pairwise_map.mpr (hpw.imp fun h => ne_of_gt h)

theorem get?_ingest {cursor : Option String} {pageSize : Nat} {st : Stage1Walk V}
    (h : Fetched rows cursor st) (k : String) (r : Stage1Row V) :
    (ingestStage1Page (fetchPage rows cursor pageSize) st).seen.get? k = some r ↔
      rows.get? k = some r ∧
        ((k, r) ∉ unfetched rows cursor ∨ (k, r) ∈ fetchPage rows cursor pageSize) := by
  have hrow : ∀ r', (k, r') ∈ fetchPage rows cursor pageSize → rows.get? k = some r' := fun r' hm =>
    OrdDict.get?_eq_some_iff.mpr (List.mem_filter.mp (mem_unfetched_of_mem_page hm)).1
  unfold ingestStage1Page
  simp only
  by_cases hk : k ∈ (fetchPage rows cursor pageSize).map Prod.fst
  · obtain ⟨⟨k', r'⟩, hm, rfl⟩ := List.mem_map.mp hk
    rw [OrdDict.get?_setAll_of_mem _ (fetchPage_keys_nodup cursor pageSize) hm]
    constructor
    · intro hr
      cases hr
      exact ⟨hrow _ hm, Or.inr hm⟩
    · rintro ⟨hr, -⟩
      rw [hrow _ hm] at hr
      exact hr
  · rw [OrdDict.get?_setAll_of_not_mem _ hk, h k r]
    have hnot : (k, r) ∉ fetchPage rows cursor pageSize :=
      fun hm => hk (List.mem_map.mpr ⟨_, hm, rfl⟩)
    simp [hnot]

theorem fetched_init (rows : OrdDict String (Stage1Row V)) (channels : List String) :
    Fetched rows none (Stage1Walk.init channels) := by
  intro k r
  simp only [Stage1Walk.init, OrdDict.get?_emptyCollection, reduceCtorEq, false_iff, not_and,
    not_not]
  intro h
  exact List.mem_filter.mpr ⟨OrdDict.get?_eq_some_iff.mp h, rfl⟩

section Loop
variable {target : String} {channels : List String} {pageSize : Nat}

/-- The seen rows after a page, and after the walks advanced over them. -/
theorem seen_page {cursor : Option String} {st : Stage1Walk V}
    (hacyc : Lineage.Acyclic rows.get? Stage1Row.parentId) (h : Fetched rows cursor st) :
    (∀ k r, (ingestStage1Page (fetchPage rows cursor pageSize) st).seen.get? k = some r →
        rows.get? k = some r) ∧
      Lineage.Acyclic (ingestStage1Page (fetchPage rows cursor pageSize) st).seen.get?
        Stage1Row.parentId := by
  have hsub : ∀ k r, (ingestStage1Page (fetchPage rows cursor pageSize) st).seen.get? k = some r →
      rows.get? k = some r := fun k r hr => ((get?_ingest h k r).mp hr).1
  exact ⟨hsub, acyclic_of_subset hacyc hsub⟩

theorem fetched_page {cursor : Option String} {st : Stage1Walk V} {last : String × Stage1Row V}
    (h : Fetched rows cursor st)
    (hlast : (fetchPage rows cursor pageSize).getLast? = some last) :
    Fetched rows (some last.1) (tryAdvanceWalks target channels
      (ingestStage1Page (fetchPage rows cursor pageSize) st)) := by
  intro k r
  rw [seen_tryAdvanceWalks, get?_ingest h k r, mem_page_or_unfetched cursor pageSize last hlast (k, r)]
  tauto

/-- When the page was short, all rows were seen. -/
theorem seen_all_of_short {cursor : Option String} {st : Stage1Walk V}
    (h : Fetched rows cursor st)
    (hshort : (fetchPage rows cursor pageSize).length < pageSize) (k : String) :
    (tryAdvanceWalks target channels
      (ingestStage1Page (fetchPage rows cursor pageSize) st)).seen.get? k = rows.get? k := by
  rw [seen_tryAdvanceWalks]
  ext r
  rw [get?_ingest h k r]
  constructor
  · exact fun hr => hr.1
  · intro hr
    refine ⟨hr, ?_⟩
    by_cases hm : (k, r) ∈ unfetched rows cursor
    · exact Or.inr (mem_page_of_short hshort hm)
    · exact Or.inl hm

/-- An entered walk is not moved by a page. -/
theorem channelWalk_ingest {ch : String} {start : Option String} {st : Stage1Walk V}
    (page : List (String × Stage1Row V)) (hinv : ChannelWalk rows target start ch st)
    (hwait : Waits ch st) : ChannelWalk rows target start ch (ingestStage1Page page st) := by
  refine ⟨hinv.seeded, ?_⟩
  intro hs
  obtain ⟨c, hc, -⟩ := hwait.resolve_left hs
  have hcur : cursorOf target (ingestStage1Page page st) ch = cursorOf target st ch := by
    simp [cursorOf, ingestStage1Page, hc]
  rw [hcur]
  exact hinv.going hs

/-- What one page does to every requested channel. -/
theorem page_step {cursor : Option String} {start : Option String} {st : Stage1Walk V}
    (hacyc : Lineage.Acyclic rows.get? Stage1Row.parentId) (h : Fetched rows cursor st)
    (hinv : ∀ ch ∈ channels, ChannelWalk rows target start ch
      (ingestStage1Page (fetchPage rows cursor pageSize) st)) :
    ∀ ch ∈ channels,
      ChannelWalk rows target start ch (tryAdvanceWalks target channels
          (ingestStage1Page (fetchPage rows cursor pageSize) st)) ∧
        Waits ch (tryAdvanceWalks target channels
          (ingestStage1Page (fetchPage rows cursor pageSize) st)) := by
  intro ch hch
  obtain ⟨hsub, hacyc'⟩ := seen_page hacyc h
  obtain ⟨h₂, h₃⟩ := tryAdvanceWalks_spec hacyc channels _ hacyc' hsub
  exact ⟨h₂ (hinv ch hch), h₃ (Or.inr hch)⟩

theorem length_unfetched_lt {cursor : Option String} {last : String × Stage1Row V}
    (hlast : (fetchPage rows cursor pageSize).getLast? = some last) :
    (unfetched rows (some last.1)).length < (unfetched rows cursor).length := by
  have hnd : ∀ c, (unfetched rows c).Nodup := fun c =>
    List.Nodup.of_map Prod.fst (rows.nodup.sublist (List.filter_sublist.map _))
  have hmem := mem_page_or_unfetched cursor pageSize last hlast
  have hl : last ∈ fetchPage rows cursor pageSize := List.mem_of_getLast? hlast
  have hsub : last :: unfetched rows (some last.1) ⊆ unfetched rows cursor := by
    refine List.cons_subset.mpr ⟨mem_unfetched_of_mem_page hl, ?_⟩
    intro e he
    exact ((hmem e).mp he).1
  have hcons : (last :: unfetched rows (some last.1)).Nodup :=
    List.nodup_cons.mpr ⟨fun hm => ((hmem last).mp hm).2 hl, hnd _⟩
  have := (List.subperm_of_subset hcons hsub).length_le
  rw [List.length_cons] at this
  omega

/-- Once every walk is entered, the pages bring every walk to its end. -/
theorem pagedLoop_spec {start : Option String}
    (hacyc : Lineage.Acyclic rows.get? Stage1Row.parentId) (hsize : 1 ≤ pageSize) :
    ∀ (n : Nat) (cursor : Option String) (st : Stage1Walk V),
      (unfetched rows cursor).length < n → Fetched rows cursor st → SeededAmong channels st →
      (∀ ch ∈ channels, ChannelWalk rows target start ch st ∧ Waits ch st) →
      ∀ ch ∈ channels,
        ChannelWalk rows target start ch (pagedLoop rows pageSize target channels n cursor st) ∧
          (ch ∈ (pagedLoop rows pageSize target channels n cursor st).seeded ∨
            (Waits ch (pagedLoop rows pageSize target channels n cursor st) ∧
              ∀ k, (pagedLoop rows pageSize target channels n cursor st).seen.get? k =
                rows.get? k))
  | 0, _, _, hn, _, _, _ => by simp at hn
  | n + 1, cursor, st, hn, hfetched, hseeded, hinv => by
    intro ch hch
    unfold pagedLoop
    cases hpage : (fetchPage rows cursor pageSize).getLast? with
    | none =>
      have hnil := List.getLast?_eq_none_iff.mp hpage
      simp only [hnil, List.isEmpty_nil, if_true]
      refine ⟨(hinv ch hch).1, ?_⟩
      by_cases hs : ch ∈ st.seeded
      · exact Or.inl hs
      refine Or.inr ⟨(hinv ch hch).2, ?_⟩
      intro k
      ext r
      rw [hfetched k r]
      constructor
      · exact fun hr => hr.1
      · intro hr
        refine ⟨hr, ?_⟩
        intro hm
        have hm' := mem_page_of_short (by rw [hnil]; exact hsize) hm
        rw [hnil] at hm'
        simp at hm'
    | some last =>
      have hne : (fetchPage rows cursor pageSize).isEmpty = false := by
        cases hp : fetchPage rows cursor pageSize with
        | nil => rw [hp] at hpage; simp at hpage
        | cons _ _ => rfl
      simp only [hne, hpage, Bool.false_eq_true, if_false, Option.map_some]
      have hstep := page_step hacyc hfetched fun ch hch =>
        channelWalk_ingest (fetchPage rows cursor pageSize) (hinv ch hch).1 (hinv ch hch).2
      have hseeded' : SeededAmong channels (tryAdvanceWalks target channels
          (ingestStage1Page (fetchPage rows cursor pageSize) st)) :=
        seededAmong_tryAdvance channels _ (fun _ h => h) hseeded
      split
      · rename_i hstop
        refine ⟨(hstep ch hch).1, ?_⟩
        rcases hstop with hlen | hshort
        · exact Or.inl (mem_seeded_of_length hseeded' hlen ch hch)
        · exact Or.inr ⟨(hstep ch hch).2, seen_all_of_short hfetched hshort⟩
      · exact pagedLoop_spec hacyc hsize n (some last.1) _ (by have := length_unfetched_lt hpage; omega)
          (fetched_page hfetched hpage) hseeded' hstep ch hch

/-- The cursor of `ch` was set to None without a row visited. -/
def Stuck (ch : String) (st : Stage1Walk V) : Prop :=
  ch ∉ st.seeded ∧ st.walkCursorByCh.get? ch = some none ∧ st.chainByCh.getD ch [] = []

theorem stuck_enter {ch : String} {st : Stage1Walk V} (hs : ch ∉ st.seeded)
    (hcur : cursorOf target st ch = none) (hchain : st.chainByCh.getD ch [] = []) :
    Stuck ch (advanceChannel target st ch) := by
  unfold Stuck advanceChannel
  rw [if_neg (by simpa using hs), hcur, hchain]
  simp [advanceCursor, hs, OrdDict.getD]

theorem stuck_advance {ch : String} {st : Stage1Walk V} (c : String) (h : Stuck ch st) :
    Stuck ch (advanceChannel target st c) := by
  by_cases hc : ch = c
  · subst hc
    exact stuck_enter h.1 (by simp [cursorOf, h.2.1]) h.2.2
  · obtain ⟨h₁, -, h₃, h₄⟩ := advanceChannel_of_ne target _ hc
    exact ⟨fun hm => h.1 (h₄.mp hm), h₃.trans h.2.1, h₁.trans h.2.2⟩

theorem stuck_tryAdvance {ch : String} : ∀ (cs : List String) (st : Stage1Walk V),
    (Stuck ch st ∨ ch ∈ cs ∧ ch ∉ st.seeded ∧ cursorOf target st ch = none ∧
      st.chainByCh.getD ch [] = []) → Stuck ch (tryAdvanceWalks target cs st)
  | [], _, h => h.resolve_right (by simp)
  | c :: cs, st, h => by
    refine stuck_tryAdvance cs (advanceChannel target st c) ?_
    rcases h with h | ⟨hmem, hs, hcur, hchain⟩
    · exact Or.inl (stuck_advance c h)
    · by_cases hc : ch = c
      · subst hc
        exact Or.inl (stuck_enter hs hcur hchain)
      · obtain ⟨h₁, -, h₃, h₄⟩ := advanceChannel_of_ne target _ hc
        refine Or.inr ⟨(List.mem_cons.mp hmem).resolve_left hc, fun hm => hs (h₄.mp hm), ?_,
          h₁.trans hchain⟩
        rw [← hcur]
        simp only [cursorOf, h₃, seen_advanceChannel]

theorem stuck_pagedLoop {ch : String} : ∀ (n : Nat) (cursor : Option String) (st : Stage1Walk V),
    Stuck ch st → Stuck ch (pagedLoop rows pageSize target channels n cursor st)
  | 0, _, _, h => h
  | n + 1, cursor, st, h => by
    have hnext : Stuck ch (tryAdvanceWalks target channels
        (ingestStage1Page (fetchPage rows cursor pageSize) st)) :=
      stuck_tryAdvance channels _ (Or.inl h)
    unfold pagedLoop
    simp only
    split
    · exact h
    · split
      · exact hnext
      · exact stuck_pagedLoop n _ _ hnext

theorem stuck_result {ch : String} {st : Stage1Walk V} (h : Stuck ch st) :
    (st.chainByCh.getD ch [],
      if st.seeded.contains ch then some (st.seedVerByCh.getD ch none) else none) =
      (([], none) : List String × Option (Option V)) := by
  rw [h.2.2, if_neg (by simpa using h.1)]

/-- The target is among the rows of the first page. -/
def TargetOnFirstPage (rows : OrdDict String (Stage1Row V)) (pageSize : Nat) (target : String) :
    Prop :=
  target ∈ (fetchPage rows none pageSize).map Prod.fst

instance (rows : OrdDict String (Stage1Row V)) (pageSize : Nat) (target : String) :
    Decidable (TargetOnFirstPage rows pageSize target) :=
  inferInstanceAs (Decidable (target ∈ (fetchPage rows none pageSize).map Prod.fst))

/-- What the pages find for a channel: the plain walk when the first page has the
    target, else nothing. -/
theorem pagedWalk_spec (hacyc : Lineage.Acyclic rows.get? Stage1Row.parentId)
    (hsize : 1 ≤ pageSize) (target : String) (channels : List String) :
    pagedWalk rows pageSize target channels =
      OrdDict.tabulate channels fun ch =>
        if TargetOnFirstPage rows pageSize target then
          (stage1Chain rows ch ((rows.get? target).bind (·.parentId)),
            stage1Seed rows ch ((rows.get? target).bind (·.parentId)))
        else ([], none) := by
  unfold pagedWalk Stage1Walk.result
  rw [OrdDict.tabulate_eq_iff]
  intro ch hch
  have hinit : ∀ c, (Stage1Walk.init channels : Stage1Walk V).chainByCh.getD c [] = [] := by
    intro c
    simp only [Stage1Walk.init, OrdDict.getD, OrdDict.get?_tabulate]
    split <;> rfl
  have hfetched := fetched_init rows channels
  have hlen : (unfetched rows none).length < rows.keys.length + 1 := by
    simp [unfetched, OrdDict.keys]
  have hseeded : SeededAmong channels (Stage1Walk.init channels : Stage1Walk V) :=
    ⟨List.nodup_nil, by simp [Stage1Walk.init]⟩
  unfold pagedLoop
  cases hpage : (fetchPage rows none pageSize).getLast? with
  | none =>
    have hnil := List.getLast?_eq_none_iff.mp hpage
    have htarget : ¬TargetOnFirstPage rows pageSize target := by simp [TargetOnFirstPage, hnil]
    simp only [hnil, List.isEmpty_nil, if_true, if_neg htarget, hinit]
    simp [Stage1Walk.init]
  | some last =>
    have hne : (fetchPage rows none pageSize).isEmpty = false := by
      cases hp : fetchPage rows none pageSize with
      | nil => rw [hp] at hpage; simp at hpage
      | cons _ _ => rfl
    simp only [hne, hpage, Bool.false_eq_true, if_false, Option.map_some]
    by_cases htarget : TargetOnFirstPage rows pageSize target
    · obtain ⟨⟨t, row⟩, hmem, ht⟩ := List.mem_map.mp htarget
      simp only at ht
      subst ht
      have hrow : rows.get? t = some row :=
        OrdDict.get?_eq_some_iff.mpr (List.mem_filter.mp (mem_unfetched_of_mem_page hmem)).1
      have hseen : (ingestStage1Page (fetchPage rows none pageSize)
          (Stage1Walk.init channels)).seen.get? t = some row :=
        (get?_ingest hfetched t row).mpr ⟨hrow, Or.inr hmem⟩
      have hstart : ∀ ch ∈ channels, ChannelWalk rows t ((rows.get? t).bind (·.parentId)) ch
          (ingestStage1Page (fetchPage rows none pageSize) (Stage1Walk.init channels)) := by
        intro ch _
        have hcur : cursorOf t (ingestStage1Page (fetchPage rows none pageSize)
            (Stage1Walk.init channels)) ch = (rows.get? t).bind (·.parentId) := by
          rw [cursorOf, hseen, hrow]
          rfl
        refine ⟨by simp [ingestStage1Page, Stage1Walk.init], fun _ => ?_⟩
        rw [hcur]
        exact ⟨by rw [ingestStage1Page, hinit, List.nil_append], rfl⟩
      have hstep := page_step hacyc hfetched hstart
      have hseeded' : SeededAmong channels (tryAdvanceWalks t channels
          (ingestStage1Page (fetchPage rows none pageSize) (Stage1Walk.init channels))) :=
        seededAmong_tryAdvance channels _ (fun _ h => h) hseeded
      rw [if_pos htarget]
      split
      · rename_i hstop
        refine channelWalk_done (hstep ch hch).1 ?_
        rcases hstop with hl | hshort
        · exact Or.inl (mem_seeded_of_length hseeded' hl ch hch)
        · exact Or.inr ⟨(hstep ch hch).2, seen_all_of_short hfetched hshort⟩
      · obtain ⟨h₁, h₂⟩ := pagedLoop_spec hacyc hsize rows.keys.length
          (some last.1) _ (by have := length_unfetched_lt hpage; omega)
          (fetched_page hfetched hpage) hseeded' hstep ch hch
        exact channelWalk_done h₁ h₂
    · rw [if_neg htarget]
      have hunseen : (ingestStage1Page (fetchPage rows none pageSize)
          (Stage1Walk.init channels)).seen.get? target = none := by
        rw [ingestStage1Page, OrdDict.get?_setAll_of_not_mem _ htarget]
        rfl
      have hstuck : Stuck ch (tryAdvanceWalks target channels
          (ingestStage1Page (fetchPage rows none pageSize) (Stage1Walk.init channels))) := by
        refine stuck_tryAdvance channels _ (Or.inr ⟨hch, by simp [ingestStage1Page,
          Stage1Walk.init], ?_, hinit ch⟩)
        rw [cursorOf, hunseen]
        rfl
      split
      · exact stuck_result hstuck
      · exact stuck_result (stuck_pagedLoop _ _ _ hstuck)

end Loop

/-- A plain walk that finds nothing meets no row. -/
theorem stage1_eq_nil_iff (ch : String) (cursor : Option String) :
    (stage1Chain rows ch cursor, stage1Seed rows ch cursor) = ([], none) ↔
      stage1Rows rows cursor = [] := by
  unfold stage1Chain stage1Seed
  cases h : stage1Rows rows cursor with
  | nil => simp [Lineage.upto]
  | cons e l =>
    cases hv : stage1Value ch e <;> simp [Lineage.upto, hv]

theorem stage1Rows_eq_nil_iff (cursor : Option String) :
    stage1Rows rows cursor = [] ↔ cursor.bind rows.get? = none := by
  cases cursor with
  | none => simp [stage1Rows]
  | some k =>
    cases h : rows.get? k with
    | none => simp [stage1Rows, Lineage.walk_of_missing h, h]
    | some r => simp [stage1Rows, Lineage.walk_succ_some h, h]

/-- Paging gives the plain walk exactly when the first page has the target, or
    there is nothing to walk: no channel, or no stored parent. -/
theorem pagedWalk_eq_plainWalk_iff (hacyc : Lineage.Acyclic rows.get? Stage1Row.parentId)
    {pageSize : Nat} (hsize : 1 ≤ pageSize) (target : String) (channels : List String) :
    pagedWalk rows pageSize target channels = plainWalk rows target channels ↔
      TargetOnFirstPage rows pageSize target ∨ channels = [] ∨
        ((rows.get? target).bind (·.parentId)).bind rows.get? = none := by
  rw [pagedWalk_spec hacyc hsize, plainWalk, OrdDict.tabulate_eq_iff]
  by_cases htarget : TargetOnFirstPage rows pageSize target
  · simp [htarget]
  · simp only [htarget, if_false, false_or]
    rw [← stage1Rows_eq_nil_iff]
    constructor
    · intro h
      cases channels with
      | nil => exact Or.inl rfl
      | cons ch _ =>
        exact Or.inr ((stage1_eq_nil_iff ch _).mp (h ch (List.mem_cons_self ..)).symm)
    · rintro (rfl | hnil)
      · simp
      · intro ch _
        exact ((stage1_eq_nil_iff ch _).mpr hnil).symm

end Paging

/-- Three checkpoints in a line; the root holds a value of every channel. -/
def lineRows : OrdDict String (Stage1Row ℕ) :=
  OrdDict.ofList
    [("1", ⟨none, fun _ => some 1, fun _ => true⟩),
      ("2", ⟨some "1", fun _ => some 2, fun _ => false⟩),
      ("3", ⟨some "2", fun _ => some 3, fun _ => false⟩)]

theorem lineRows_acyclic : Lineage.Acyclic lineRows.get? Stage1Row.parentId := by
  refine ⟨fun k => if k = "3" then 2 else if k = "2" then 1 else 0, ?_⟩
  intro k r p hk hp _
  have hmem := OrdDict.get?_eq_some_iff.mp hk
  have hentries : lineRows.entries =
      [("1", ⟨none, fun _ => some 1, fun _ => true⟩),
        ("2", ⟨some "1", fun _ => some 2, fun _ => false⟩),
        ("3", ⟨some "2", fun _ => some 3, fun _ => false⟩)] := rfl
  rw [hentries] at hmem
  simp only [List.mem_cons, Prod.mk.injEq, List.not_mem_nil, or_false] at hmem
  rcases hmem with ⟨rfl, rfl⟩ | ⟨rfl, rfl⟩ | ⟨rfl, rfl⟩
  · cases hp
  · cases hp
    decide
  · cases hp
    decide

/-- Pages of two rows reach the seed of checkpoint "2" across the page boundary. -/
theorem pagedWalk_lineRows : pagedWalk lineRows 2 "2" ["log"] = plainWalk lineRows "2" ["log"] :=
  (pagedWalk_eq_plainWalk_iff lineRows_acyclic (by decide) "2" ["log"]).mpr (Or.inl (by decide))

/-- With pages of one row the first page has checkpoint "3" only, and the walk
    from "2" visits nothing. -/
theorem pagedWalk_ne_plainWalk :
    pagedWalk lineRows 1 "2" ["log"] ≠ plainWalk lineRows "2" ["log"] := by
  decide

end LangGraph
