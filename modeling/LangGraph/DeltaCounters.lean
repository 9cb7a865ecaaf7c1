import LangGraph.Lib.Lineage
import LangGraph.PutCheckpoint

/- The walks of the `DeltaChannel`s, and the counters that bound them.

   Correspondence (source ↔ Lean):
     `counters_since_delta_snapshot`                ↔ `ThreadRow.counters`
     the ancestors of a checkpoint                  ↔ `lineage`
     `get_delta_channel_history`                    ↔ `visited`, the rows it looks at
   `stepsSince` are the supersteps that the rows record since the nearest one that
   holds a snapshot; the counters are to be their numbers (`Counted`). A
   superstep counts itself, so this is kept by every `_put_checkpoint` whose step
   updates what was written since the last one and whose snapshots are stored.
   The walk is then no longer than the supersteps counted, since every row but a
   root stands for one (`length_visited_le`). -/
namespace LangGraph

/-! ## A `DeltaChannel` in a call -/

section Delta
variable {V : Type} [LinearOrder V]

/-- The channel is a `DeltaChannel` that holds a value. -/
def Loop.Tracks (l : Loop V) (k : String) (frequency : Nat) : Prop :=
  ∃ d, l.channels.get? k = some (.deltaChannel d) ∧ d.snapshotFrequency = frequency ∧
    d.value.isSome = true

theorem DeltaChannel.update_spec (d : DeltaChannel) (vals : List PyVal)
    (hd : d.value.isSome = true) :
    (d.update vals).1.snapshotFrequency = d.snapshotFrequency ∧
      (d.update vals).1.value.isSome = true ∧
      ∀ changed, (d.update vals).2 = .ok changed → changed = decide (vals ≠ []) := by
  unfold DeltaChannel.update
  split
  · exact ⟨rfl, hd, fun changed h => by cases h; rfl⟩
  · rename_i hne
    have hne : vals ≠ [] := fun e => hne e
    split
    · exact ⟨rfl, hd, fun changed h => nomatch h⟩
    · exact ⟨rfl, rfl, fun changed h => by cases h; simp [hne]⟩
    · split
      · exact ⟨rfl, rfl, fun changed h => by cases h; simp [hne]⟩
      · exact ⟨rfl, hd, fun changed h => nomatch h⟩

namespace ChannelView
variable {v : V} {w w' : ChannelView V}

omit [LinearOrder V] in
/-- A call leaves a `DeltaChannel` as it was, or it was written and updated. -/
theorem Applied.delta {consumed bump finished : Bool} {vals : List PyVal} {d : DeltaChannel}
    (h : Applied v consumed vals bump finished w w') (hw : w.channel = .deltaChannel d)
    (hu : w.updated = false) (hd : d.value.isSome = true) :
    (∃ d', w'.channel = .deltaChannel d' ∧ d'.snapshotFrequency = d.snapshotFrequency ∧
        d'.value.isSome = true) ∧
      (vals = [] → w' = w) ∧ (vals ≠ [] → w'.version = some v ∧ w'.updated = true) := by
  obtain ⟨w₁, w₂, w₃, h₁, h₂, h₃, h₄⟩ := h
  -- `consume` and `finish` do nothing to it, and neither does a notification
  have hfinish : ∀ (u : ChannelView V) (e : DeltaChannel), u.channel = .deltaChannel e →
      u.finish v = u := by
    intro u e hu
    unfold finish
    rw [hu]
    show u.record v (.deltaChannel e) false = u
    rw [← hu]
    exact record_false
  have hbump : ∀ (u u' : ChannelView V) (e : DeltaChannel), u.channel = .deltaChannel e →
      Bumps v u u' → u' = u := by
    intro u u' e hu hb
    unfold Bumps at hb
    split at hb
    · obtain ⟨changed, hup, hu'⟩ := hb
      rw [hu] at hup
      have hsame : (Channel.deltaChannel e, Except.ok false) = (u'.channel, Except.ok changed) := hup
      obtain ⟨hch, hfalse⟩ := Prod.mk.inj hsame
      rw [hu', ← hch, ← Except.ok.inj hfalse, ← hu]
      exact record_false
    · exact hb
  have hconsume : w.consume v = w := by
    cases w with
    | mk channel version updated =>
      cases hw
      rfl
  have hw₁ : w₁ = w := by
    rw [h₁]
    split
    · exact hconsume
    · rfl
  rw [hw₁] at h₂
  by_cases hvals : vals = []
  · rw [if_pos hvals] at h₂
    have hw₃ : w₃ = w := by
      split at h₃
      · exact (hbump w₂ w₃ d (by rw [h₂, hw]) h₃).trans h₂
      · exact h₃.trans h₂
    have heq : w' = w := by
      rw [h₄, hw₃]
      split
      · exact hfinish w d hw
      · rfl
    rw [heq]
    exact ⟨⟨d, hw, rfl, hd⟩, fun _ => rfl, fun hne => absurd hvals hne⟩
  · rw [if_neg hvals] at h₂
    obtain ⟨changed, hup, hw₂⟩ := h₂
    obtain ⟨hfreq, hval, hchanged⟩ := d.update_spec vals hd
    have hup' : (Channel.deltaChannel (d.update vals).1, (d.update vals).2) =
        (w₂.channel, Except.ok changed) := by
      rw [← hup, hw]
      simp [Channel.update, Prod.map]
    obtain ⟨hch, hok⟩ := Prod.mk.inj hup'
    have htrue : changed = true := by simpa [hvals] using hchanged changed hok
    have hupd : w₂.version = some v ∧ w₂.updated = true := by
      rw [hw₂, ← hch, htrue]
      simp [record, Channel.isAvailable, hval]
    have hw₃ : w₃ = w₂ := by
      split at h₃
      · exact hbump w₂ w₃ _ hch.symm h₃
      · exact h₃
    have heq : w' = w₂ := by
      rw [h₄, hw₃]
      split
      · exact hfinish w₂ _ hch.symm
      · rfl
    rw [heq]
    exact ⟨⟨_, hch.symm, hfreq, hval⟩, fun e => absurd e hvals, fun _ => hupd⟩

end ChannelView

variable {p : Program V} {l l' : Loop V} {tasks : List TaskWrites} {us : List String} {k : String}
  {frequency : Nat}

theorem writesFor_sortBy_eq_nil_iff : writesFor (SortBy.sortBy TaskWrites.sortKey tasks) k = [] ↔
    writesFor tasks k = [] := by
  rw [← not_iff_not]
  exact ⟨writesFor_ne_nil_of_subset fun t => SortBy.mem_sortBy.mp,
    writesFor_ne_nil_of_subset fun t => SortBy.mem_sortBy.mpr⟩

/-- A call updates a `DeltaChannel` exactly when some task wrote to it. -/
theorem Loop.Tracks.apply (ht : l.Tracks k frequency) (h : l.apply p tasks = some (l', us)) :
    l'.Tracks k frequency ∧
      (writesFor tasks k = [] → k ∉ us ∧
        l'.checkpoint.channelVersions.get? k = l.checkpoint.channelVersions.get? k) ∧
      (writesFor tasks k ≠ [] → k ∈ us ∧
        l'.checkpoint.channelVersions.get? k = some (l.checkpoint.next p.getNextVersion)) := by
  obtain ⟨d, hch, hfreq, hval⟩ := ht
  obtain ⟨s, finished, hr, rfl, rfl⟩ := Loop.apply_eq_some h
  have hview := hr.view k
  have hw : ApplyState.view k ⟨l.checkpoint, l.channels, []⟩ =
      some ⟨.deltaChannel d, l.checkpoint.channelVersions.get? k, false⟩ := by
    simp [ApplyState.view, hch]
  rw [hw] at hview
  generalize hv : s.view k = view at hview
  cases hview with
  | @some _ w' happ =>
    rw [ApplyState.view, Option.map_eq_some_iff] at hv
    obtain ⟨ch', hch', rfl⟩ := hv
    obtain ⟨⟨d', hd', hfreq', hval'⟩, hnil, hne⟩ := happ.delta rfl rfl hval
    simp only [ne_eq, writesFor_sortBy_eq_nil_iff] at hnil hne
    refine ⟨⟨d', hch'.trans (congrArg some hd'), hfreq'.trans hfreq, hval'⟩, ?_, ?_⟩
    · intro hw
      obtain ⟨-, hver, hout⟩ := ChannelView.mk.inj (hnil hw)
      exact ⟨of_decide_eq_false hout, hver⟩
    · intro hw
      obtain ⟨hver, hin⟩ := hne hw
      exact ⟨of_decide_eq_true hin, hver⟩

omit [LinearOrder V] in
/-- A checkpoint restores a `DeltaChannel` with a value. -/
theorem Loop.tracks_of_load {s : Saved V} {history : History} {delta : DeltaChannel}
    (hs : p.specs.get? k = some (.deltaChannel delta)) (h : s.load p history = some l) :
    l.Tracks k delta.snapshotFrequency := by
  obtain ⟨hload, -⟩ := Saved.load_eq_some h
  obtain ⟨ch, hch, hy⟩ :=
    (get?_hydrateAll p.specs.nodup hload).1 _ (OrdDict.get?_eq_some_iff.mp hs)
  have hstart : ∀ v, ((delta.fromCheckpoint v).snapshotFrequency = delta.snapshotFrequency) ∧
      (delta.fromCheckpoint v).value.isSome = true := by
    intro v
    unfold DeltaChannel.fromCheckpoint
    split <;> exact ⟨rfl, rfl⟩
  have hreplay : ∀ (d d' : DeltaChannel) (values : List PyVal), d.value.isSome = true →
      d.replayWrites values = .ok d' →
      d'.snapshotFrequency = d.snapshotFrequency ∧ d'.value.isSome = true := by
    intro d d' values hd hr
    have hbase : ∀ (vs : List PyVal) (base : Option PyVal) (remaining : List PyVal),
        base.isSome = true → (d.replayLoop base remaining vs).1.isSome = true := by
      intro vs
      induction vs with
      | nil => exact fun _ _ hb => hb
      | cons v vs ih =>
        intro base remaining hb
        unfold DeltaChannel.replayLoop
        split
        · exact ih _ _ rfl
        · exact ih _ _ hb
    unfold DeltaChannel.replayWrites at hr
    split at hr
    · cases hr
      exact ⟨rfl, hd⟩
    · have hsome := hbase values d.value [] hd
      split at hr
      · rename_i base heq
        rw [heq] at hsome
        cases hr
        exact ⟨rfl, hsome⟩
      · rename_i base remaining _ _
        match hred : d.reducer base remaining with
        | .error e =>
          rw [hred] at hr
          cases hr
        | .ok v =>
          rw [hred] at hr
          cases hr
          exact ⟨rfl, rfl⟩
      · rename_i heq
        rw [heq] at hsome
        cases hsome
  unfold hydrate at hy
  split at hy
  · rename_i history delta' _ hdelta
    cases hdelta
    match hr : (delta.fromCheckpoint history.seed).replayWrites (history.writes.map (·.value)) with
    | .error e =>
      rw [hr] at hy
      cases hy
    | .ok d =>
      rw [hr] at hy
      cases hy
      obtain ⟨hfreq, hval⟩ := hreplay _ _ _ (hstart history.seed).2 hr
      exact ⟨d, hch, hfreq.trans (hstart history.seed).1, hval⟩
  · cases hy
    exact ⟨_, hch, hstart _⟩

theorem DeltaChannel.touched {d : DeltaChannel} (hd : d.value.isSome = true) {c : Channel}
    (h : (Channel.deltaChannel d).Touched c) :
    ∃ d', c = .deltaChannel d' ∧ d'.snapshotFrequency = d.snapshotFrequency ∧
      d'.value.isSome = true := by
  cases h with
  | consume => exact ⟨d, rfl, rfl, hd⟩
  | finish => exact ⟨d, rfl, rfl, hd⟩
  | update vals =>
    obtain ⟨hfreq, hval, -⟩ := d.update_spec vals hd
    exact ⟨_, rfl, hfreq, hval⟩

/-- A call that raises leaves a `DeltaChannel` with a value, and no version is lost. -/
theorem Loop.Tracks.raised (ht : l.Tracks k frequency) {s : ApplyState V} {e : PyErr}
    (h : applyWrites l.checkpoint l.channels tasks (some p.getNextVersion) p.triggerToNodes =
      (s, .error e)) :
    Loop.Tracks { l with checkpoint := s.checkpoint, channels := s.channels } k frequency ∧
      s.checkpoint.id = l.checkpoint.id ∧
      ∀ c, l.checkpoint.channelVersions.contains c = true →
        s.checkpoint.channelVersions.contains c = true := by
  have hinv := applyWrites_invariant
    (P := fun cp channels => (∃ d, channels.get? k = some (.deltaChannel d) ∧
        d.snapshotFrequency = frequency ∧ d.value.isSome = true) ∧
      cp.id = l.checkpoint.id ∧ ∀ c, l.checkpoint.channelVersions.contains c = true →
        cp.channelVersions.contains c = true)
    (by
      intro cp channels chan c c' ⟨⟨d, hd, hfreq, hval⟩, hrest⟩ hc hc'
      refine ⟨?_, hrest⟩
      by_cases hk : k = chan
      · subst hk
        cases hd.symm.trans hc
        obtain ⟨d', rfl, hfreq', hval'⟩ := d.touched hval hc'
        exact ⟨d', OrdDict.get?_set_self _ _ _, hfreq'.trans hfreq, hval'⟩
      · exact ⟨d, by rw [OrdDict.get?_set_of_ne hk, hd], hfreq, hval⟩)
    (by
      intro cp channels chan ⟨htr, hid, hver⟩ _
      refine ⟨htr, hid, fun c hc => ?_⟩
      have hold := hver c hc
      rw [OrdDict.contains_iff] at hold ⊢
      exact OrdDict.mem_keys_set.mpr (Or.inr hold))
    l.checkpoint l.channels tasks p.getNextVersion p.triggerToNodes rfl
    ⟨ht, id_foldl_markSeen _ _, fun c hc => by rw [channelVersions_foldl_markSeen]; exact hc⟩
  rw [h] at hinv
  exact hinv

end Delta

/-! ## The history of a row -/

section Rows
variable {V : Type}

/-- The checkpoint holds a snapshot of the channel. -/
def ThreadRow.holds (row : ThreadRow V) (k : String) : Bool :=
  row.saved.checkpoint.channelValues.contains k

def lineage (rows : List (ThreadRow V)) (cursor : Option Nat) : List (Nat × ThreadRow V) :=
  Lineage.ofList ThreadRow.parent rows cursor

/-- The supersteps recorded since the nearest row that holds a snapshot, newest first. -/
def stepsSince (rows : List (ThreadRow V)) (k : String) (cursor : Option Nat) :
    List (List String) :=
  ((lineage rows cursor).takeWhile fun e => !e.2.holds k).flatMap fun e => e.2.steps

/-- The supersteps that updated the channel, and all of them. -/
def countSince (k : String) (steps : List (List String)) : Nat × Nat :=
  (steps.countP (·.contains k), steps.length)

/-- The ancestors that `get_delta_channel_history` looks at for the checkpoint. -/
def visited (rows : List (ThreadRow V)) (k : String) (row : ThreadRow V) :
    List (Nat × ThreadRow V) :=
  Lineage.upto (fun e => e.2.saved.checkpoint.channelValues.get? k) (lineage rows row.parent)

/-- What the rows of a thread record of one `DeltaChannel`. -/
structure RowCounted (bound frequency : Nat) (k : String) (rows : List (ThreadRow V)) (i : Nat)
    (row : ThreadRow V) : Prop where
  counted : row.counters.getD k (0, 0) = countSince k (stepsSince rows k (some i))
  below : (row.counters.getD k (0, 0)).1 < frequency ∧
    ((row.counters.getD k (0, 0)).2 < bound ∨ (row.counters.getD k (0, 0)).2 = 0)
  stamped : 0 < (row.counters.getD k (0, 0)).1 →
    row.saved.checkpoint.channelVersions.contains k = true
  /-- Only a root stands for no superstep. -/
  root : row.steps = [] → row.parent = none

structure RowsCounted (bound frequency : Nat) (k : String) (rows : List (ThreadRow V)) : Prop where
  ordered : Lineage.Ordered ThreadRow.parent rows
  row : ∀ i row, rows[i]? = some row → RowCounted bound frequency k rows i row

variable {bound frequency : Nat} {k : String} {rows : List (ThreadRow V)}

@[simp] theorem stepsSince_none : stepsSince rows k none = [] := by
  rw [stepsSince, lineage, Lineage.ofList_none]
  rfl

theorem stepsSince_some (h : Lineage.Ordered ThreadRow.parent rows) {i : Nat} {row : ThreadRow V}
    (hi : rows[i]? = some row) : stepsSince rows k (some i) =
      if row.holds k then [] else row.steps ++ stepsSince rows k row.parent := by
  rw [stepsSince, lineage, Lineage.ofList_some h hi]
  cases hh : row.holds k with
  | true => simp [hh]
  | false => simp [hh, stepsSince, lineage]

/-- Later rows do not change the supersteps since a snapshot. -/
theorem stepsSince_append (h : Lineage.Ordered ThreadRow.parent rows) {row : ThreadRow V}
    (hparent : ∀ j, row.parent = some j → j < rows.length) {c : Option Nat}
    (hc : ∀ j, c = some j → j < rows.length) :
    stepsSince (rows ++ [row]) k c = stepsSince rows k c := by
  rw [stepsSince, lineage, Lineage.ofList_append h (h.append hparent) hc]
  rfl

theorem countSince_cons (step : List String) (steps : List (List String)) :
    countSince k (step :: steps) = (if step.contains k then (countSince k steps).1 + 1
      else (countSince k steps).1, (countSince k steps).2 + 1) := by
  rw [countSince, List.countP_cons, List.length_cons]
  split <;> rfl

/-- A row that counts the supersteps of its parent and its own. -/
theorem RowsCounted.append (h : RowsCounted bound frequency k rows) {row : ThreadRow V}
    (hparent : ∀ j, row.parent = some j → j < rows.length)
    (hcounted : row.counters.getD k (0, 0) = if row.holds k then (0, 0)
      else countSince k (row.steps ++ stepsSince rows k row.parent))
    (hbelow : (row.counters.getD k (0, 0)).1 < frequency ∧
      ((row.counters.getD k (0, 0)).2 < bound ∨ (row.counters.getD k (0, 0)).2 = 0))
    (hstamped : 0 < (row.counters.getD k (0, 0)).1 →
      row.saved.checkpoint.channelVersions.contains k = true)
    (hroot : row.steps = [] → row.parent = none) :
    RowsCounted bound frequency k (rows ++ [row]) := by
  have hordered := h.ordered.append hparent
  refine ⟨hordered, fun i row' hi => ?_⟩
  rcases Nat.lt_or_ge i rows.length with hlt | hge
  · rw [List.getElem?_append_left hlt] at hi
    have hrow := h.row i row' hi
    refine ⟨?_, hrow.below, hrow.stamped, hrow.root⟩
    rw [stepsSince_append h.ordered hparent fun j hj => Option.some.inj hj ▸ hlt]
    exact hrow.counted
  · have hlast := hi
    rw [List.getElem?_append_right hge, List.getElem?_singleton] at hlast
    split at hlast
    · cases hlast
      refine ⟨?_, hbelow, hstamped, hroot⟩
      rw [stepsSince_some hordered hi, stepsSince_append h.ordered hparent hparent, hcounted]
      split <;> rfl
    · cases hlast

/-- The walk from a cursor meets at most one row more than the supersteps counted. -/
theorem RowsCounted.length_upto_le (h : RowsCounted bound frequency k rows) :
    ∀ (n i : Nat), i < n → i < rows.length →
      (Lineage.upto (fun e : Nat × ThreadRow V => e.2.saved.checkpoint.channelValues.get? k)
        (lineage rows (some i))).length ≤ (stepsSince rows k (some i)).length + 1 := by
  intro n
  induction n with
  | zero => exact fun i hi => absurd hi (Nat.not_lt_zero i)
  | succ n ih =>
    intro i hi hlt
    have hrow : rows[i]? = some rows[i] := List.getElem?_eq_getElem hlt
    rw [stepsSince_some h.ordered hrow, lineage, Lineage.ofList_some h.ordered hrow, Lineage.upto]
    cases hh : rows[i].holds k with
    | true =>
      have hs : (rows[i].saved.checkpoint.channelValues.get? k).isSome = true := hh
      rw [if_pos hs]
      simp
    | false =>
      have hs : ¬ (rows[i].saved.checkpoint.channelValues.get? k).isSome = true := by
        rw [show (rows[i].saved.checkpoint.channelValues.get? k).isSome = rows[i].holds k from rfl, hh]
        exact Bool.false_ne_true
      rw [if_neg hs, if_neg Bool.false_ne_true, List.length_cons, List.length_append]
      cases hp : rows[i].parent with
      | none =>
        rw [Lineage.ofList_none]
        simp [Lineage.upto]
      | some j =>
        have hj := h.ordered i _ hrow j hp
        have hle := ih j (by omega) (by omega)
        -- a row with a parent stands for a superstep
        have hpos : rows[i].steps ≠ [] := by
          intro he
          rw [(h.row i _ hrow).root he] at hp
          cases hp
        have := List.length_pos_iff.mpr hpos
        rw [lineage] at hle
        omega

/-- The ancestors that the walk for a row looks at are no more than its supersteps. -/
theorem RowsCounted.length_visited_le (h : RowsCounted bound frequency k rows) {i : Nat}
    {row : ThreadRow V} (hi : rows[i]? = some row) (hh : row.holds k = false) :
    (visited rows k row).length ≤ (row.counters.getD k (0, 0)).2 := by
  rw [(h.row i row hi).counted, countSince, stepsSince_some h.ordered hi, hh,
    if_neg Bool.false_ne_true, List.length_append, visited]
  cases hp : row.parent with
  | none =>
    rw [lineage, Lineage.ofList_none]
    exact Nat.zero_le _
  | some j =>
    have hj := h.ordered i _ hi j hp
    have hlt : i < rows.length := (List.getElem?_eq_some_iff.mp hi).1
    have hle := h.length_upto_le (j + 1) j (by omega) (by omega)
    have hpos : row.steps ≠ [] := by
      intro he
      rw [(h.row i _ hi).root he] at hp
      cases hp
    have := List.length_pos_iff.mpr hpos
    omega

end Rows

/-! ## One `_put_checkpoint` -/

section Put
variable {V : Type} {r : RunState V} {k : String} {bound frequency : Nat}

theorem getD_countStep (h : r.loop.Tracks k frequency) : r.countStep.getD k (0, 0) =
    (if (r.updatedChannels.getD []).contains k then (r.counters.getD k (0, 0)).1 + 1
      else (r.counters.getD k (0, 0)).1, (r.counters.getD k (0, 0)).2 + 1) := by
  obtain ⟨d, hch, -, -⟩ := h
  rw [OrdDict.getD, RunState.countStep, OrdDict.get?_filterMap, hch]
  rfl

theorem mem_deltaChannelsDue {l : Loop V} (h : l.Tracks k frequency) (counters : DeltaCounters) :
    k ∈ deltaChannelsDue bound l.channels counters ↔
      frequency ≤ (counters.getD k (0, 0)).1 ∨ bound ≤ (counters.getD k (0, 0)).2 := by
  obtain ⟨d, hch, hfreq, hval⟩ := h
  rw [deltaChannelsDue, List.mem_filterMap]
  constructor
  · rintro ⟨⟨c, ch⟩, hmem, hdue⟩
    have hget := OrdDict.get?_eq_some_iff.mpr hmem
    simp only at hdue
    split at hdue
    · cases hdue
    · rename_i d' hd'
      split at hdue
      · rename_i hcond
        cases hdue
        cases hch.symm.trans hget
        cases hd'
        rw [Bool.and_eq_true, Bool.or_eq_true, decide_eq_true_eq, decide_eq_true_eq, hfreq] at hcond
        exact hcond.2
      · cases hdue
  · intro hdue
    refine ⟨(k, .deltaChannel d), OrdDict.get?_eq_some_iff.mp hch, ?_⟩
    have hcond : ((Channel.deltaChannel d).isAvailable &&
        (decide (d.snapshotFrequency ≤ (counters.getD k (0, 0)).1) ||
          decide (bound ≤ (counters.getD k (0, 0)).2))) = true := by
      rw [Bool.and_eq_true, Bool.or_eq_true, decide_eq_true_eq, decide_eq_true_eq, hfreq]
      exact ⟨hval, hdue⟩
    exact if_pos hcond

theorem getD_resetCounters (counters : DeltaCounters) (toSnapshot : List String) :
    (resetCounters counters toSnapshot).getD k (0, 0) =
      if k ∈ toSnapshot then (0, 0) else counters.getD k (0, 0) := by
  rw [OrdDict.getD, OrdDict.getD, resetCounters, OrdDict.get?_filterMap]
  cases counters.get? k with
  | none => simp
  | some count =>
    by_cases hk : k ∈ toSnapshot
    · simp [hk]
    · by_cases hc : count = (0, 0)
      · simp [hk, hc]
      · simp [hk, hc]

variable (p : Program V)

theorem contains_newCheckpoint (id : String) (toSnapshot : List String) (c : String) :
    (r.newCheckpoint p id toSnapshot).channelVersions.contains c =
      r.loop.checkpoint.channelVersions.contains c := by
  rw [RunState.newCheckpoint, channelVersions_sanitizeTasks, OrdDict.contains, OrdDict.contains,
    get?_channelVersions_create, Option.isSome_map]

/-- A `DeltaChannel` is stored when it has a version and is among the snapshots. -/
theorem holds_newCheckpoint (h : r.loop.Tracks k frequency) (id : String)
    (toSnapshot : List String) :
    (r.newCheckpoint p id toSnapshot).channelValues.contains k =
      (r.loop.checkpoint.channelVersions.contains k && decide (k ∈ toSnapshot)) := by
  obtain ⟨d, hch, -, hval⟩ := h
  obtain ⟨v, hv⟩ := Option.isSome_iff_exists.mp hval
  have hsanitize : ∀ cp : Checkpoint V, (sanitizeTasks r.loop.channels cp).channelValues.contains k =
      cp.channelValues.contains k := by
    intro cp
    by_cases hk : k = Const.TASKS
    · subst hk
      unfold sanitizeTasks
      split
      · rename_i hsome
        split
        · simp [OrdDict.contains, hsome]
        · rfl
      · rfl
    · rw [OrdDict.contains, OrdDict.contains, get?_channelValues_sanitizeTasks _ _ hk]
  rw [RunState.newCheckpoint, hsanitize, OrdDict.contains, get?_channelValues_create, hch]
  cases r.loop.checkpoint.channelVersions.contains k with
  | false => rfl
  | true =>
    by_cases hk : k ∈ toSnapshot
    · simp [snapshotValue, hk, Channel.get, hv]
    · simp [snapshotValue, hk, Channel.checkpoint]

end Put

/-! ## Runs -/

/-- What a run knows of one `DeltaChannel`: its counters are those of the rows it
    starts from and of the supersteps since. -/
structure RunCounted {V : Type} (frequency : Nat) (k : String) (rows : List (ThreadRow V))
    (r : RunState V) : Prop where
  tracks : r.loop.Tracks k frequency
  counted : r.counters.getD k (0, 0) = countSince k (r.steps ++ stepsSince rows k r.parent)
  parent : ∀ j, r.parent = some j → j < rows.length
  stamped : 0 < (r.counters.getD k (0, 0)).1 →
    r.loop.checkpoint.channelVersions.contains k = true
  early : r.phase = .first → r.updatedChannels = none
  stepped : r.durability = .exit → r.loop.checkpoint.id ≠ r.checkpointIdSaved → r.steps ≠ []
  rooted : r.durability = .exit → r.hasPersistedParent = false → r.parent = none

structure ThreadCounted {V : Type} (bound frequency : Nat) (k : String) (w : ThreadState V) :
    Prop where
  rows : RowsCounted bound frequency k w.rows
  run : ∀ r, w.run = some r → RunCounted frequency k w.rows r

section Saves
variable {V : Type} {rows : List (ThreadRow V)} {r : RunState V} {k : String}
  {bound frequency : Nat} (p : Program V)

theorem RunCounted.append (h : RunCounted frequency k rows r)
    (hrows : Lineage.Ordered ThreadRow.parent rows) {row : ThreadRow V}
    (hparent : ∀ j, row.parent = some j → j < rows.length) :
    RunCounted frequency k (rows ++ [row]) r := by
  refine ⟨h.tracks, ?_, fun j hj => ?_, h.stamped, h.early, h.stepped, h.rooted⟩
  · rw [stepsSince_append hrows hparent h.parent]
    exact h.counted
  · rw [List.length_append]
    exact Nat.lt_add_right _ (h.parent j hj)

/-- A checkpoint that is saved with its counters: what they reset is stored. -/
theorem RowsCounted.append_saved (hpos : 0 < frequency) (hrows : RowsCounted bound frequency k rows)
    (ht : r.loop.Tracks k frequency) {counters : DeltaCounters} {parent : Option Nat}
    {steps : List (List String)} (id : String) (progress : Bool)
    (hparent : ∀ j, parent = some j → j < rows.length)
    (hcounted : counters.getD k (0, 0) = countSince k (steps ++ stepsSince rows k parent))
    (hstamped : 0 < (counters.getD k (0, 0)).1 →
      r.loop.checkpoint.channelVersions.contains k = true)
    (hdue : r.loop.checkpoint.channelVersions.contains k = true ∨
      (counters.getD k (0, 0)).2 < bound ∧ k ∉ r.deltaChannelsWithOverwrite)
    (hsteps : steps ≠ []) :
    RowsCounted bound frequency k (rows ++
      [⟨⟨r.newCheckpoint p id (r.channelsToSnapshot bound counters), r.loop.unread⟩, parent,
        resetCounters counters (r.channelsToSnapshot bound counters), steps, progress⟩]) := by
  generalize hsnap : r.channelsToSnapshot bound counters = toSnapshot
  have hmem : k ∈ toSnapshot ↔ (frequency ≤ (counters.getD k (0, 0)).1 ∨
      bound ≤ (counters.getD k (0, 0)).2) ∨ k ∈ r.deltaChannelsWithOverwrite := by
    rw [← hsnap, RunState.channelsToSnapshot, List.mem_union_iff, mem_deltaChannelsDue ht]
  have hstored : k ∈ toSnapshot → r.loop.checkpoint.channelVersions.contains k = true := by
    intro hk
    rcases hdue with hver | ⟨hlt, hout⟩
    · exact hver
    · rcases hmem.mp hk with (hfreq | hbound) | hover
      · exact hstamped (Nat.lt_of_lt_of_le hpos hfreq)
      · exact absurd hbound (Nat.not_le.mpr hlt)
      · exact absurd hover hout
  have hreset := getD_resetCounters (k := k) counters toSnapshot
  refine hrows.append hparent ?_ ?_ ?_ fun h => absurd h hsteps
  · show (resetCounters counters toSnapshot).getD k (0, 0) =
      if (r.newCheckpoint p id toSnapshot).channelValues.contains k then (0, 0)
      else countSince k (steps ++ stepsSince rows k parent)
    rw [hreset, holds_newCheckpoint p ht id toSnapshot]
    by_cases hk : k ∈ toSnapshot
    · rw [if_pos hk, hstored hk, if_pos (by simp [hk])]
    · rw [if_neg hk, if_neg (by simp [hk]), hcounted]
  · show ((resetCounters counters toSnapshot).getD k (0, 0)).1 < frequency ∧ _
    rw [hreset]
    by_cases hk : k ∈ toSnapshot
    · rw [if_pos hk]
      exact ⟨hpos, Or.inr rfl⟩
    · rw [if_neg hk]
      rw [hmem, not_or, not_or, Nat.not_le, Nat.not_le] at hk
      exact ⟨hk.1.1, Or.inl hk.1.2⟩
  · show 0 < ((resetCounters counters toSnapshot).getD k (0, 0)).1 →
      (r.newCheckpoint p id toSnapshot).channelVersions.contains k = true
    rw [hreset, contains_newCheckpoint]
    split
    · exact fun h => absurd h (Nat.lt_irrefl 0)
    · exact hstamped

/-- `_put_checkpoint` counts a superstep whose updates are those written since the
    last one, provided that what it resets is stored. -/
theorem putCheckpoint_counted (hpos : 0 < frequency) (hrows : RowsCounted bound frequency k rows)
    (hr : RunCounted frequency k rows r) (hphase : r.phase ≠ .first) (id : String)
    (hupdated : k ∈ r.updatedChannels.getD [] ↔ k ∈ r.written)
    (hstamped : k ∈ r.updatedChannels.getD [] →
      r.loop.checkpoint.channelVersions.contains k = true)
    (hdue : r.durability ≠ .exit → r.loop.checkpoint.channelVersions.contains k = true ∨
      (r.counters.getD k (0, 0)).2 + 1 < bound ∧ k ∉ r.deltaChannelsWithOverwrite) :
    ThreadCounted bound frequency k (putCheckpoint bound p rows r id) := by
  have hcount : r.countStep.getD k (0, 0) =
      countSince k ((r.written :: r.steps) ++ stepsSince rows k r.parent) := by
    rw [getD_countStep hr.tracks, List.cons_append, countSince_cons, ← hr.counted]
    simp only [List.contains_iff_mem, hupdated]
  have hstamp : 0 < (r.countStep.getD k (0, 0)).1 →
      r.loop.checkpoint.channelVersions.contains k = true := by
    rw [getD_countStep hr.tracks]
    intro h
    by_cases hk : k ∈ r.updatedChannels.getD []
    · exact hstamped hk
    · rw [if_neg fun hc => hk (List.contains_iff_mem.mp hc)] at h
      exact hr.stamped h
  unfold putCheckpoint
  split
  · refine ⟨hrows, fun r' hr' => ?_⟩
    cases hr'
    have hreset : (resetCounters r.countStep []).getD k (0, 0) = r.countStep.getD k (0, 0) := by
      rw [getD_resetCounters, if_neg List.not_mem_nil]
    have hver : (r.advance id).loop.checkpoint.channelVersions.contains k =
        r.loop.checkpoint.channelVersions.contains k := by
      rw [RunState.advance, channelVersions_sanitizeTasks]
      rfl
    refine ⟨hr.tracks, hreset.trans hcount, hr.parent, ?_, fun h => absurd h hphase,
      fun _ _ => List.cons_ne_nil _ _, hr.rooted⟩
    intro h
    rw [hver]
    exact hstamp (hreset ▸ h)
  · rename_i hsaves
    have hdue' : r.loop.checkpoint.channelVersions.contains k = true ∨
        (r.countStep.getD k (0, 0)).2 < bound ∧ k ∉ r.deltaChannelsWithOverwrite := by
      rw [getD_countStep hr.tracks]
      exact hdue hsaves
    have hrow := hrows.append_saved p hpos hr.tracks id r.progress hr.parent hcount hstamp hdue'
      (List.cons_ne_nil _ _)
    refine ⟨hrow, fun r' hr' => ?_⟩
    cases hr'
    have hlast := hrow.row rows.length _ List.getElem?_concat_length
    refine ⟨hr.tracks, hlast.counted, ?_, hlast.stamped, fun h => absurd h hphase,
      fun h => absurd h hsaves, fun h => absurd h hsaves⟩
    intro j hj
    cases hj
    simp

/-- A root for no superstep. -/
theorem RowsCounted.append_stub (hpos : 0 < frequency) (h : RowsCounted bound frequency k rows)
    (id : String) : RowsCounted bound frequency k (rows ++ [stubRow id]) := by
  refine h.append (fun j hj => nomatch hj) ?_ ⟨hpos, Or.inr rfl⟩
    (fun h => absurd h (Nat.lt_irrefl 0)) fun _ => rfl
  show (0, 0) = if (stubRow (V := V) id).holds k then (0, 0) else countSince k ([] ++ stepsSince rows k none)
  rw [stepsSince_none]
  split <;> rfl

/-- The stub records nothing that the run would count. -/
theorem putExitDeltaWrites_counted (hpos : 0 < frequency)
    (hrows : RowsCounted bound frequency k rows) (hr : RunCounted frequency k rows r)
    (hexit : r.durability = .exit) {rows' : List (ThreadRow V)} {parent : Option Nat}
    (h : r.putExitDeltaWrites bound rows = (rows', parent)) :
    RowsCounted bound frequency k rows' ∧ (∀ j, parent = some j → j < rows'.length) ∧
      stepsSince rows' k parent = stepsSince rows k r.parent := by
  unfold RunState.putExitDeltaWrites at h
  simp only at h
  split at h
  · cases h
    exact ⟨hrows, hr.parent, rfl⟩
  · rename_i hcond
    cases h
    rw [Bool.or_eq_true, not_or] at hcond
    have hrows' := hrows.append_stub hpos r.checkpointIdSaved
    have hlast : (rows ++ [stubRow r.checkpointIdSaved])[rows.length]? =
        some (stubRow r.checkpointIdSaved) := List.getElem?_concat_length
    have hparent : (stubRow (V := V) r.checkpointIdSaved).parent = none := rfl
    refine ⟨hrows', fun j hj => ?_, ?_⟩
    · cases hj
      simp
    · rw [hr.rooted hexit (by simpa using hcond.2), stepsSince_none,
        stepsSince_some hrows'.ordered hlast, hparent, stepsSince_none]
      split <;> rfl

theorem putExitCheckpoint_counted (hpos : 0 < frequency)
    (hrows : RowsCounted bound frequency k rows) (hr : RunCounted frequency k rows r)
    (hexit : r.durability = .exit)
    (hdue : r.loop.checkpoint.id ≠ r.checkpointIdSaved →
      r.loop.checkpoint.channelVersions.contains k = true ∨
        (r.counters.getD k (0, 0)).2 < bound ∧ k ∉ r.deltaChannelsWithOverwrite) :
    RowsCounted bound frequency k (putExitCheckpoint bound p rows r) := by
  generalize hput : r.putExitDeltaWrites bound rows = put
  obtain ⟨rows', parent⟩ := put
  obtain ⟨hrows', hparent, hsteps⟩ := putExitDeltaWrites_counted hpos hrows hr hexit hput
  rw [putExitCheckpoint, hput]
  simp only
  split
  · exact hrows'
  · rename_i hid
    exact hrows'.append_saved p hpos hr.tracks _ _ hparent (hsteps ▸ hr.counted) hr.stamped
      (hdue hid) (hr.stepped hexit hid)

end Saves

/-! ## The steps of a thread -/

section Steps
variable {V : Type} [LinearOrder V]

/-- The step updates what null writes have reached, and a `DeltaChannel` that
    nothing wrote is not due for a snapshot. -/
def RunState.Counts (bound : Nat) (r : RunState V) (tasks : List TaskWrites)
    (overwritten : List String) (k : String) : Prop :=
  (k ∈ r.written → writesFor tasks k ≠ []) ∧
    (r.durability ≠ .exit → r.loop.checkpoint.channelVersions.contains k = true ∨
      writesFor tasks k ≠ [] ∨ (r.counters.getD k (0, 0)).2 + 1 < bound ∧
        k ∉ r.deltaChannelsWithOverwrite ∪ overwritten)

instance (bound : Nat) (r : RunState V) (tasks : List TaskWrites) (overwritten : List String)
    (k : String) : Decidable (r.Counts bound tasks overwritten k) :=
  inferInstanceAs (Decidable (_ ∧ _))

variable {p : Program V} {bound : Nat} {k : String} {frequency : Nat} {rows : List (ThreadRow V)}
  {r : RunState V} {l : Loop V} {tasks : List TaskWrites} {us : List String}

omit [LinearOrder V] in
theorem writesFor_nil (k : String) : writesFor [] k = [] := by
  unfold writesFor
  split <;> rfl

theorem Loop.mem_changed {l l' : Loop V} : k ∈ l.changed l' ↔
    l'.checkpoint.channelVersions.contains k = true ∧
      l.checkpoint.channelVersions.get? k ≠ l'.checkpoint.channelVersions.get? k := by
  rw [Loop.changed, List.mem_filter, decide_eq_true_eq, OrdDict.contains_iff]

theorem Loop.apply_id {l l' : Loop V} (h : l.apply p tasks = some (l', us)) :
    l'.checkpoint.id = l.checkpoint.id := by
  obtain ⟨s, finished, hr, rfl, -⟩ := Loop.apply_eq_some h
  have hid : s.checkpoint.id =
      ((SortBy.sortBy TaskWrites.sortKey tasks).foldl markSeen l.checkpoint).id :=
    congrArg (fun f => f.1) hr.frame
  exact hid.trans (id_foldl_markSeen _ _)

/-- A call that raises nothing counts nothing yet. -/
theorem RunCounted.called (h : RunCounted frequency k rows r)
    (ha : r.loop.apply p tasks = some (l, us)) {l' : Loop V} (hch : l'.channels = l.channels)
    (hcp : l'.checkpoint = l.checkpoint) : RunCounted frequency k rows (r.called l') := by
  obtain ⟨⟨d, hd, hrest⟩, hnil, hne⟩ := h.tracks.apply ha
  refine ⟨⟨d, by rw [← hd, ← hch]; rfl, hrest⟩, h.counted, h.parent, ?_, h.early, ?_, h.rooted⟩
  · intro hpos
    have hver := h.stamped hpos
    show l'.checkpoint.channelVersions.contains k = true
    rw [hcp]
    by_cases hw : writesFor tasks k = []
    · rw [OrdDict.contains, (hnil hw).2]
      exact hver
    · rw [OrdDict.contains, (hne hw).2]
      rfl
  · intro hexit hid
    apply h.stepped hexit
    intro he
    apply hid
    show l'.checkpoint.id = r.checkpointIdSaved
    rw [hcp, Loop.apply_id ha, he]

variable [OrderBot V]

/-- A superstep or an input that meets the condition is counted as it is. -/
theorem Loop.Tracks.counts (hinc : Increasing p.getNextVersion) (ht : r.loop.Tracks k frequency)
    (ha : r.loop.apply p tasks = some (l, us)) {overwritten : List String}
    (hok : r.Counts bound tasks overwritten k) :
    (k ∈ us ↔ k ∈ r.written ∪ r.loop.changed l) ∧
      (k ∈ us → l.checkpoint.channelVersions.contains k = true) ∧
      (r.durability ≠ .exit → l.checkpoint.channelVersions.contains k = true ∨
        (r.counters.getD k (0, 0)).2 + 1 < bound ∧
          k ∉ r.deltaChannelsWithOverwrite ∪ overwritten) := by
  obtain ⟨-, hnil, hne⟩ := ht.apply ha
  by_cases hw : writesFor tasks k = []
  · obtain ⟨hout, hver⟩ := hnil hw
    have hcontains : l.checkpoint.channelVersions.contains k =
        r.loop.checkpoint.channelVersions.contains k := by
      rw [OrdDict.contains, OrdDict.contains, hver]
    refine ⟨?_, fun hk => absurd hk hout, fun hsaves => ?_⟩
    · rw [iff_false_left hout, List.mem_union_iff, Loop.mem_changed, not_or]
      exact ⟨fun hk => hok.1 hk hw, fun hc => hc.2 hver.symm⟩
    · rw [hcontains]
      rcases hok.2 hsaves with hv | hv | hv
      · exact Or.inl hv
      · exact absurd hw hv
      · exact Or.inr hv
  · obtain ⟨hin, hver⟩ := hne hw
    have hcontains : l.checkpoint.channelVersions.contains k = true := by
      rw [OrdDict.contains, hver]
      rfl
    refine ⟨?_, fun _ => hcontains, fun _ => Or.inl hcontains⟩
    rw [iff_true_left hin, List.mem_union_iff, Loop.mem_changed]
    refine Or.inr ⟨hcontains, fun he => ?_⟩
    rw [hver] at he
    exact absurd (hinc.lt_next he) (lt_irrefl _)

/-- The step keeps the counters: it counts what was written, and what it resets is
    stored. An update of the state has no counters, and a copy drops those of its
    source. -/
def Counts (bound : Nat) (p : Program V) (w : ThreadState V) : ThreadEvent → Prop
  | .resume (some _) => ∀ r ∈ w.run, ∀ k ∈ p.deltaChannels, r.Counts bound [] [] k
  | .input info writes _ => ∀ r ∈ w.run, ∀ k ∈ p.deltaChannels,
      r.Counts bound (r.inputTasks p info writes) (p.overwritten writes) k
  | .superstep info outputs pushed _ _ => ∀ r ∈ w.run, ∀ k ∈ p.deltaChannels,
      let tasks := r.superstepTasks p info outputs ++ pushed.map Pushed.toTaskWrites
      r.Counts bound tasks (p.overwritten (tasks.flatMap TaskWrites.writes)) k
  | .exit => ∀ r ∈ w.run, r.durability = .exit → r.loop.checkpoint.id ≠ r.checkpointIdSaved →
      ∀ k ∈ p.deltaChannels, r.loop.checkpoint.channelVersions.contains k = true ∨
        (r.counters.getD k (0, 0)).2 < bound ∧ k ∉ r.deltaChannelsWithOverwrite
  | .update source id _ change => p.deltaChannels = [] ∨
      change.keepsChannels = true ∧ ∀ row ∈ w.source source id, row.counters.entries = []
  | _ => True

instance Counts.instDecidable (bound : Nat) (p : Program V) (w : ThreadState V) :
    ∀ e : ThreadEvent, Decidable (Counts bound p w e)
  | .resume (some _) => inferInstanceAs (Decidable (∀ r ∈ w.run, ∀ k ∈ p.deltaChannels, _))
  | .input .. => inferInstanceAs (Decidable (∀ r ∈ w.run, ∀ k ∈ p.deltaChannels, _))
  | .superstep info outputs pushed _ _ => inferInstanceAs (Decidable (∀ r ∈ w.run,
      ∀ k ∈ p.deltaChannels, r.Counts bound
        (r.superstepTasks p info outputs ++ pushed.map Pushed.toTaskWrites) _ k))
  | .exit => inferInstanceAs (Decidable (∀ r ∈ w.run, r.durability = .exit → _ ≠ _ →
      ∀ k ∈ p.deltaChannels, _ ∨ _))
  | .update .. => inferInstanceAs (Decidable (_ ∨ _))
  | .enter .. => inferInstanceAs (Decidable True)
  | .nullWrites _ => inferInstanceAs (Decidable True)
  | .resume none => inferInstanceAs (Decidable True)
  | .started => inferInstanceAs (Decidable True)

variable {w w' : ThreadState V} {delta : DeltaChannel}

omit [LinearOrder V] [OrderBot V] in
theorem Program.mem_deltaChannels (hs : p.specs.get? k = some (.deltaChannel delta)) :
    k ∈ p.deltaChannels := by
  rw [Program.deltaChannels, List.mem_filter]
  refine ⟨OrdDict.mem_keys_iff.mpr ⟨_, hs⟩, ?_⟩
  rw [Program.isDelta, hs]
  rfl

omit [LinearOrder V] [OrderBot V] in
/-- What a thread knows of the checkpoint that a run or an update starts from. -/
theorem ThreadCounted.source (hw : ThreadCounted bound delta.snapshotFrequency k w)
    {source : Option Nat} {id : String} {row : ThreadRow V} (h : w.source source id = some row) :
    row.counters.getD k (0, 0) = countSince k (stepsSince w.rows k source) ∧
      (∀ j, source = some j → j < w.rows.length) ∧
      (0 < (row.counters.getD k (0, 0)).1 →
        row.saved.checkpoint.channelVersions.contains k = true) := by
  cases source with
  | none =>
    cases h
    rw [stepsSince_none]
    exact ⟨rfl, nofun, fun h => absurd h (Nat.lt_irrefl 0)⟩
  | some i =>
    have hrow := hw.rows.row i row h
    refine ⟨hrow.counted, fun j hj => ?_, hrow.stamped⟩
    cases hj
    exact (List.getElem?_eq_some_iff.mp h).1

omit [LinearOrder V] [OrderBot V] in
theorem ThreadCounted.enter (hs : p.specs.get? k = some (.deltaChannel delta))
    (hw : ThreadCounted bound delta.snapshotFrequency k w) {source : Option Nat} {id : String}
    {history : History} {durability : Durability}
    (h : LangGraph.enter p w source id history durability = some w') :
    ThreadCounted bound delta.snapshotFrequency k w' := by
  obtain ⟨row, hrow, h⟩ := Option.bind_eq_some_iff.mp h
  obtain ⟨l, hl, rfl⟩ := Option.map_eq_some_iff.mp h
  obtain ⟨hcounted, hlt, hstamped⟩ := hw.source hrow
  refine ⟨hw.rows, fun r hr => ?_⟩
  cases hr
  have hcp := (Saved.load_eq_some hl).2.1
  refine ⟨Loop.tracks_of_load hs hl, hcounted, hlt, ?_, fun _ => rfl, fun _ hid => absurd rfl hid, ?_⟩
  · intro hpos
    show l.checkpoint.channelVersions.contains k = true
    rw [hcp]
    exact hstamped hpos
  · intro _ hnone
    show source = none
    cases source with
    | none => rfl
    | some i => cases hnone

/-- A copy of a checkpoint without counters has none to lose. -/
theorem ThreadCounted.update (hs : p.specs.get? k = some (.deltaChannel delta))
    (hw : ThreadCounted bound delta.snapshotFrequency k w) {source : Option Nat} {id : String}
    {history : History} {change : Update}
    (hok : Counts bound p w (.update source id history change))
    (h : performSuperstep p w source id history change = some w') :
    ThreadCounted bound delta.snapshotFrequency k w' := by
  rcases hok with hnone | ⟨hkeeps, hzero⟩
  · have hmem := Program.mem_deltaChannels hs
    rw [hnone] at hmem
    cases hmem
  · cases change with
    | copy =>
      unfold performSuperstep at h
      split at h
      · cases h
      · rename_i hsource
        obtain ⟨row, hrow, h⟩ := Option.bind_eq_some_iff.mp h
        obtain ⟨l, hl, h⟩ := Option.bind_eq_some_iff.mp h
        obtain ⟨l', hl', rfl⟩ := Option.map_eq_some_iff.mp h
        cases hl'
        cases source with
        | none => exact absurd ⟨rfl, rfl⟩ hsource
        | some i =>
          have hi := hw.rows.row i row hrow
          have hempty : row.counters.getD k (0, 0) = (0, 0) := by
            have hentries : row.counters.entries = [] := hzero row hrow
            rw [OrdDict.getD, OrdDict.get?_eq_none_iff.mpr (by simp [OrdDict.keys, hentries])]
            rfl
          have hcounted := hi.counted
          rw [hempty, stepsSince_some hw.rows.ordered hrow] at hcounted
          have hvalues : l.unhinted.checkpoint.channelValues = row.saved.checkpoint.channelValues :=
            congrArg Checkpoint.channelValues (Saved.load_eq_some hl).2.1
          have hlt : i < w.rows.length := (List.getElem?_eq_some_iff.mp hrow).1
          have hparent : ∀ j, row.parent = some j → j < w.rows.length :=
            fun j hj => Nat.lt_trans (hw.rows.ordered i row hrow j hj) hlt
          refine ⟨hw.rows.append hparent ?_ ?_ ?_ hi.root, ?_⟩
          · show (0, 0) = if l.unhinted.checkpoint.channelValues.contains k then (0, 0)
              else countSince k (row.steps ++ stepsSince w.rows k row.parent)
            rw [hvalues]
            split
            · rfl
            · rename_i hh
              rw [ThreadRow.holds, if_neg hh] at hcounted
              exact hcounted
          · exact ⟨delta.frequency_pos, Or.inr rfl⟩
          · exact fun h => absurd h (Nat.lt_irrefl 0)
          · exact fun r hr => (hw.run r hr).append hw.rows.ordered hparent
    | _ => cases hkeeps

theorem ThreadCounted.resume (hs : p.specs.get? k = some (.deltaChannel delta))
    (hw : ThreadCounted bound delta.snapshotFrequency k w) {fork : Option String}
    (hok : Counts bound p w (.resume fork)) (h : threadStep bound p w (.resume fork) = some w') :
    ThreadCounted bound delta.snapshotFrequency k w' := by
  obtain ⟨r, hr, h⟩ := Option.bind_eq_some_iff.mp h
  split at h
  · rename_i hfirst
    have hrun := hw.run r hr
    have hseen : RunCounted delta.snapshotFrequency k w.rows
        { r with loop := r.loop.seeInterrupts, phase := .mapped, progress := false } :=
      ⟨hrun.tracks, hrun.counted, hrun.parent, hrun.stamped, nofun, hrun.stepped, hrun.rooted⟩
    cases fork with
    | none =>
      cases h
      refine ⟨hw.rows, fun r' hr' => ?_⟩
      cases hr'
      exact hseen
    | some id =>
      cases h
      obtain ⟨hwritten, hdue⟩ := hok r hr k (Program.mem_deltaChannels hs)
      have hnone : k ∉ r.updatedChannels.getD [] := by
        rw [hrun.early hfirst.1]
        exact List.not_mem_nil
      refine putCheckpoint_counted p delta.frequency_pos hw.rows hseen
        (show Phase.mapped ≠ .first by decide) id ?_
        (fun hk => absurd hk hnone) fun hsaves => ?_
      · exact ⟨fun hk => absurd hk hnone, fun hk => absurd (writesFor_nil k) (hwritten hk)⟩
      · rcases hdue hsaves with hver | hwrites | ⟨hlt, hout⟩
        · exact Or.inl hver
        · exact absurd (writesFor_nil k) hwrites
        · exact Or.inr ⟨hlt, fun hk => hout (List.mem_union_left hk _)⟩
  · cases h

theorem ThreadCounted.input (hinc : Increasing p.getNextVersion)
    (hs : p.specs.get? k = some (.deltaChannel delta))
    (hw : ThreadCounted bound delta.snapshotFrequency k w) {info : StepInfo}
    {writes : List (String × PyVal)} {id : String} (hok : Counts bound p w (.input info writes id))
    (h : threadStep bound p w (.input info writes id) = some w') :
    ThreadCounted bound delta.snapshotFrequency k w' := by
  obtain ⟨r, hr, h⟩ := Option.bind_eq_some_iff.mp h
  split at h
  · obtain ⟨r', hr', rfl⟩ := Option.map_eq_some_iff.mp h
    obtain ⟨⟨l, us⟩, ha, rfl⟩ := Option.map_eq_some_iff.mp hr'
    have hrun := hw.run r hr
    obtain ⟨hupdated, hstamped, hdue⟩ :=
      hrun.tracks.counts hinc ha (hok r hr k (Program.mem_deltaChannels hs))
    have hcalled : RunCounted delta.snapshotFrequency k w.rows
        (r.called { l with updatedChannels := some us }) := hrun.called ha rfl rfl
    refine putCheckpoint_counted p delta.frequency_pos hw.rows ?_
      (show Phase.mapped ≠ .first by decide) id hupdated hstamped hdue
    exact ⟨hcalled.tracks, hcalled.counted, hcalled.parent, hcalled.stamped, nofun,
      hcalled.stepped, hcalled.rooted⟩
  · cases h

theorem ThreadCounted.superstep (hinc : Increasing p.getNextVersion)
    (hs : p.specs.get? k = some (.deltaChannel delta))
    (hw : ThreadCounted bound delta.snapshotFrequency k w) {info : StepInfo}
    {outputs : String → List (String × PyVal)} {pushed : List Pushed}
    {pending : List (String × PyVal)} {id : String}
    (hok : Counts bound p w (.superstep info outputs pushed pending id))
    (h : threadStep bound p w (.superstep info outputs pushed pending id) = some w') :
    ThreadCounted bound delta.snapshotFrequency k w' := by
  obtain ⟨r, hr, h⟩ := Option.bind_eq_some_iff.mp h
  simp only at h
  split at h
  · rename_i hticking
    have hrun := hw.run r hr
    have hcounts := hok r hr k (Program.mem_deltaChannels hs)
    simp only at hcounts
    generalize htasks : r.superstepTasks p info outputs ++ pushed.map Pushed.toTaskWrites = tasks
      at h hcounts
    unfold RunState.afterTick at h
    simp only at h
    match ha : applyWrites r.loop.checkpoint r.loop.channels tasks (some p.getNextVersion)
        p.triggerToNodes with
    | (s, .error e) =>
      rw [ha] at h
      cases h
      obtain ⟨htracks, hid, hver⟩ := hrun.tracks.raised ha
      refine ⟨hw.rows, fun r' hr' => ?_⟩
      cases hr'
      exact ⟨htracks, hrun.counted, hrun.parent, fun hpos => hver k (hrun.stamped hpos), nofun,
        fun hexit hne => hrun.stepped hexit fun he => hne (hid.trans he), hrun.rooted⟩
    | (s, .ok ()) =>
      rw [ha] at h
      cases h
      have happly : r.loop.apply p tasks = some (r.loop.after tasks s, s.updatedChannels) := by
        rw [Loop.apply, ha]
      obtain ⟨hupdated, hstamped, hdue⟩ := hrun.tracks.counts hinc happly hcounts
      have hcalled : RunCounted delta.snapshotFrequency k w.rows (r.called (r.loop.after tasks s)) :=
        hrun.called happly rfl rfl
      have hphase : r.phase ≠ .first := by
        rw [hticking.1]
        decide
      refine putCheckpoint_counted p delta.frequency_pos hw.rows ?_ ?_ id hupdated hstamped hdue
      · exact ⟨hcalled.tracks, hcalled.counted, hcalled.parent, hcalled.stamped,
          fun hf => absurd hf hphase, hcalled.stepped, hcalled.rooted⟩
      · exact hphase
  · cases h

/-- A step that meets the condition keeps the counters of the thread. -/
theorem ThreadCounted.step (hinc : Increasing p.getNextVersion)
    (hs : p.specs.get? k = some (.deltaChannel delta))
    (hw : ThreadCounted bound delta.snapshotFrequency k w) {e : ThreadEvent}
    (hok : Counts bound p w e) (h : threadStep bound p w e = some w') :
    ThreadCounted bound delta.snapshotFrequency k w' := by
  cases e with
  | enter source id history durability => exact hw.enter hs h
  | update source id history change => exact hw.update hs hok h
  | resume fork => exact hw.resume hs hok h
  | input info writes id => exact hw.input hinc hs hok h
  | superstep info outputs pushed pending id => exact hw.superstep hinc hs hok h
  | nullWrites writes =>
    obtain ⟨r, hr, h⟩ := Option.bind_eq_some_iff.mp h
    split at h
    · obtain ⟨⟨l, us⟩, ha, rfl⟩ := Option.map_eq_some_iff.mp h
      refine ⟨hw.rows, fun r' hr' => ?_⟩
      cases hr'
      exact (hw.run r hr).called ha rfl rfl
    · cases h
  | started =>
    obtain ⟨r, hr, h⟩ := Option.bind_eq_some_iff.mp h
    split at h
    · cases h
      have hrun := hw.run r hr
      refine ⟨hw.rows, fun r' hr' => ?_⟩
      cases hr'
      exact ⟨hrun.tracks, hrun.counted, hrun.parent, hrun.stamped, nofun, hrun.stepped, hrun.rooted⟩
    · cases h
  | exit =>
    obtain ⟨r, hr, h⟩ := Option.bind_eq_some_iff.mp h
    split at h
    · cases h
      refine ⟨?_, fun r' hr' => absurd hr'.symm (Option.some_ne_none r')⟩
      show RowsCounted bound delta.snapshotFrequency k
        (if r.durability = .exit then putExitCheckpoint bound p w.rows r else w.rows)
      split
      · rename_i hexit
        exact putExitCheckpoint_counted p delta.frequency_pos hw.rows (hw.run r hr) hexit fun hid =>
          hok r hr hexit hid k (Program.mem_deltaChannels hs)
      · exact hw.rows
    · cases h

/-- At every checkpoint of a thread whose steps meet the condition, the counters of
    a `DeltaChannel` are the numbers of its updates and of the supersteps since the
    nearest checkpoint that holds a snapshot, and the walk for it looks at no more
    ancestors than that: at fewer updates than the frequency, and within the bound. -/
theorem counters_eq_countSince (bound : Nat) (p : Program V) (hinc : Increasing p.getNextVersion)
    {w : ThreadState V}
    (h : Machine.Reachable (threadStep bound p) (Counts bound p) ⟨[], none⟩ w) {i : Nat}
    {row : ThreadRow V} (hrow : w.rows[i]? = some row) {k : String} {delta : DeltaChannel}
    (hs : p.specs.get? k = some (.deltaChannel delta)) :
    row.counters.getD k (0, 0) = countSince k (stepsSince w.rows k (some i)) ∧
      (row.holds k = false →
        (visited w.rows k row).length ≤ (countSince k (stepsSince w.rows k (some i))).2) ∧
      (countSince k (stepsSince w.rows k (some i))).1 < delta.snapshotFrequency ∧
      (countSince k (stepsSince w.rows k (some i))).2 ≤ bound := by
  have hw : ThreadCounted bound delta.snapshotFrequency k w := by
    refine Machine.Reachable.invariant (P := ThreadCounted bound delta.snapshotFrequency k) ?_ ?_ h
    · exact ⟨⟨fun i r hi => by simp at hi, fun i r hi => by simp at hi⟩,
        fun r' hr' => absurd hr'.symm (Option.some_ne_none r')⟩
    · exact fun w e w' hw hok hstep => hw.step hinc hs hok hstep
  have hcounted := (hw.rows.row i row hrow).counted
  obtain ⟨hfreq, hbound⟩ := (hw.rows.row i row hrow).below
  rw [← hcounted]
  exact ⟨rfl, hw.rows.length_visited_le hrow, hfreq, by omega⟩

end Steps

/-! ## A log that is only updated from outside -/

section Growing

theorem growingGraph_waitingEnds : ∀ e ∈ ([] : List (List String × String)), e.2 = Const.END ∨
    e.2 ∈ (OrdDict.ofList [("A", (⟨["x"], none, false, none⟩ : StateNodeSpec))]).keys := by
  decide

/-- `START → A`, where `A` appends to a log that is snapshotted every other update. -/
def growingGraph : StateGraph where
  channels := .ofList [("x", .lastValue ⟨"x", none⟩),
    ("log", .deltaChannel ⟨"log", fun v vs => .ok (match v with
      | .list old => .list (old ++ vs)
      | v => v), .list [], 2, by decide, none⟩)]
  nodes := .ofList [("A", ⟨["x"], none, false, none⟩)]
  edges := [(Const.START, "A")]
  waitingEdges := []
  waiting_ends := growingGraph_waitingEnds

def growingProgram : Program Nat where
  builder := growingGraph
  managedKeys := []
  outputChannels := ["x"]
  interruptNodes := []
  parentNs := ""
  xxh3 := fun _ s => s
  getNextVersion := fun v => v.getD 0 + 1
  valid := by decide +kernel

theorem increasing_growingProgram : Increasing growingProgram.getNextVersion where
  first := by decide
  next := fun v => Nat.lt_succ_self v

/-- A new thread is invoked, and `A` appends once. -/
def loggedRun : List ThreadEvent :=
  [.enter none "0" noHistory .sync, .input (unmanaged (-1)) [(Const.START, .int 5)] "1", .started,
    .superstep (unmanaged 0) (fun _ => [(branchTo "A", .none), ("x", .int 5)]) [] [] "2",
    .superstep (unmanaged 1) (fun _ => [("log", .int 0)]) [] [] "3", .exit]

/-- What the ancestors hold of the log: the writes of `A`. -/
def loggedBy (n : Nat) : History := fun _ =>
  .ofList [("log", ⟨(List.range n).map fun i => ⟨"A1", "log", .int i⟩, none⟩)]

def appends (source : Nat) (id : String) (n : Nat) : ThreadEvent :=
  .update (some source) id (loggedBy n) (.asNodes [("A", [("log", .int n)])])

theorem loggedRun_counted : ∃ (w : ThreadState Nat) (row : ThreadRow Nat), w.rows[2]? = some row ∧
    row.counters.getD "log" (0, 0) = (1, 3) ∧
    countSince "log" (stepsSince w.rows "log" (some 2)) = (1, 3) ∧
    (visited w.rows "log" row).length ≤ 3 := by
  have hok : Machine.Meets (threadStep deltaMaxSuperstepsSinceSnapshot growingProgram)
      (Counts deltaMaxSuperstepsSinceSnapshot growingProgram) ⟨[], none⟩ loggedRun := by
    decide +kernel
  have hrun : (Machine.run (threadStep deltaMaxSuperstepsSinceSnapshot growingProgram) ⟨[], none⟩
      loggedRun).map (fun w => (w.rows[2]?).map fun row =>
        (row.counters.getD "log" (0, 0), row.holds "log")) =
      some (some ((1, 3), false)) := by decide +kernel
  obtain ⟨w, hw, hf⟩ := Machine.exists_of_run hok hrun
  obtain ⟨row, hrow, hf⟩ := Option.map_eq_some_iff.mp hf
  obtain ⟨hcounters, hholds⟩ := Prod.mk.inj hf
  obtain ⟨delta, hs⟩ : ∃ delta, growingProgram.specs.get? "log" = some (.deltaChannel delta) :=
    ⟨_, rfl⟩
  obtain ⟨hcounted, hvisited, -, -⟩ := counters_eq_countSince deltaMaxSuperstepsSinceSnapshot
    growingProgram increasing_growingProgram hw hrow hs
  have hsince := hcounted.symm.trans hcounters
  refine ⟨w, row, hrow, hcounters, hsince, ?_⟩
  have hle := hvisited hholds
  rw [hsince] at hle
  exact hle

/-- `update_state` appends three times: the checkpoints have no counters and no
    snapshot, so the walk passes more updates than the frequency. -/
theorem counters_eq_countSince_fails : ∃ (w : ThreadState Nat) (row : ThreadRow Nat),
    Machine.Reachable (threadStep deltaMaxSuperstepsSinceSnapshot growingProgram)
      (fun _ _ => True) ⟨[], none⟩ w ∧ w.rows[5]? = some row ∧
    (∃ delta, growingProgram.specs.get? "log" = some (.deltaChannel delta) ∧
      delta.snapshotFrequency = 2) ∧
    row.counters.getD "log" (0, 0) = (0, 0) ∧
    countSince "log" (stepsSince w.rows "log" (some 5)) = (4, 6) ∧
    row.holds "log" = false ∧ (visited w.rows "log" row).length = 5 := by
  have hrun : (Machine.run (threadStep deltaMaxSuperstepsSinceSnapshot growingProgram) ⟨[], none⟩
      (loggedRun ++ [appends 2 "4" 1, appends 3 "5" 2, appends 4 "6" 3])).map (fun w =>
      (w.rows[5]?).map fun row => (row.counters.getD "log" (0, 0),
        countSince "log" (stepsSince w.rows "log" (some 5)), row.holds "log",
        (visited w.rows "log" row).length)) = some (some ((0, 0), (4, 6), false, 5)) := by
    decide +kernel
  obtain ⟨w, hw, hf⟩ :=
    Machine.exists_of_run (Machine.Meets.of_forall (fun _ _ => trivial) _ _) hrun
  obtain ⟨row, hrow, hf⟩ := Option.map_eq_some_iff.mp hf
  simp only [Prod.mk.injEq] at hf
  exact ⟨w, row, hw, hrow, ⟨_, rfl, rfl⟩, hf.1, hf.2.1, hf.2.2.1, hf.2.2.2⟩

end Growing
end LangGraph
