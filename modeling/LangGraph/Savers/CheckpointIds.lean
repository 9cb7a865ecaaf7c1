import LangGraph.Lib.BitFields
import LangGraph.Lib.Numerals

/- The ids of checkpoints, and the checkpoint that a thread continues from.

   Correspondence (source ↔ Lean):
     `_last_v6_timestamp`, `timestamp` (checkpoint/base/id.py) ↔ `nextTimestamp`
     `uuid_int` of `uuid6`                          ↔ `uuidInt`
     `UUID.__init__` with `int` and `version`       ↔ `withVersion`
     `str` of a `uuid.UUID`                         ↔ `uuidText`
     `uuid6`                                        ↔ `uuid6`
     `UUID.time` for version 6                      ↔ `uuidTime`
     the calls of one process                       ↔ `timestamps`, `drawn`, `drawIds`
   `clock_seq` and `node` are ints of either sign, or bits that are drawn; the loop
   gives its step, which may be negative. `drawIds_pairwise_lt`: the texts of the ids
   increase whatever the clock reads. -/
namespace LangGraph

/- ── uuid6 ─────────────────────────────────────────────────────── -/

/-- What one call reads from the clock, and the other two fields. -/
structure Uuid6Call where
  nanoseconds : Int
  clockSeq : Int
  node : Int

/-- `0x01B21DD213814000`, the 100-ns intervals from the UUID epoch to the Unix epoch -/
def unixEpochTicks : Int := 0x01B21DD213814000

def Uuid6Call.ticks (c : Uuid6Call) : Int := c.nanoseconds / 100 + unixEpochTicks

/-- The timestamp of a call, which is the next `_last_v6_timestamp`. -/
def nextTimestamp (last : Option Int) (c : Uuid6Call) : Int :=
  match last with
  | none => c.ticks
  | some l => if c.ticks ≤ l then l + 1 else c.ticks

/-- `x & (2 ** k - 1)` -/
def lowBits (k : Nat) (x : Int) : Nat := (x % 2 ^ k).toNat

def uuidInt (timestamp : Int) (c : Uuid6Call) : Nat :=
  let timeHighAndTimeMid := lowBits 48 (timestamp >>> (12 : Nat))
  let timeLowAndVersion := lowBits 12 timestamp
  timeHighAndTimeMid <<< 80 ||| timeLowAndVersion <<< 64 ||| lowBits 14 c.clockSeq <<< 48 |||
    lowBits 48 c.node

/-- The variant of RFC 4122 and the version number. -/
def withVersion (int version : Nat) : Nat :=
  let int := Nat.ldiff int (0xC000 <<< 48)
  let int := int ||| 0x8000 <<< 48
  let int := Nat.ldiff int (0xF000 <<< 64)
  int ||| version <<< 76

/-- The text with a hyphen behind the fields of the given widths. -/
def hyphenated : List Nat → List Char → List Char
  | [], text => text
  | k :: widths, text => text.take k ++ '-' :: hyphenated widths (text.drop k)

/-- `hex[:8]`, `hex[8:12]`, `hex[12:16]`, `hex[16:20]` and `hex[20:]` of `'%032x' % int` -/
def uuidText (int : Nat) : String :=
  String.ofList (hyphenated [8, 4, 4, 4] (Numerals.padded 16 32 int))

def uuid6 (last : Option Int) (c : Uuid6Call) : Nat :=
  withVersion (uuidInt (nextTimestamp last c) c) 6

/-- `(time_low << 28) | (time_mid << 12) | (time_hi_version & 0x0FFF)` -/
def uuidTime (int : Nat) : Nat :=
  let timeLow := int >>> 96
  let timeMid := (int >>> 80) % 2 ^ 16
  let timeHiVersion := (int >>> 64) % 2 ^ 16
  timeLow <<< 28 ||| timeMid <<< 12 ||| timeHiVersion % 2 ^ 12

/-- The timestamps of the calls of one process, in order. -/
def timestamps : Option Int → List Uuid6Call → List Int
  | _, [] => []
  | last, c :: calls => nextTimestamp last c :: timestamps (some (nextTimestamp last c)) calls

/-- What the calls return. -/
def drawn : Option Int → List Uuid6Call → List Nat
  | _, [] => []
  | last, c :: calls => uuid6 last c :: drawn (some (nextTimestamp last c)) calls

/-- The ids of checkpoints: `str(uuid6(clock_seq=step))` in one process. -/
def drawIds (calls : List Uuid6Call) : List String := (drawn none calls).map uuidText

theorem lowBits_lt (k : Nat) (x : Int) : lowBits k x < 2 ^ k := by
  have hpos : (0 : Int) < 2 ^ k := Int.pow_pos (by decide)
  have hlt := Int.emod_lt_of_pos x hpos
  have h0 := Int.emod_nonneg x (ne_of_gt hpos)
  unfold lowBits
  have hcast : ((2 ^ k : Nat) : Int) = 2 ^ k := by push_cast; rfl
  omega

/-- The fields from the low bits up: node, clock sequence, variant, the low bits of the
    time, version, and the high bits of the time. -/
theorem withVersion_fields (h l s n : Nat) (hl : l < 2 ^ 12) (hs : s < 2 ^ 14) (hn : n < 2 ^ 48) :
    withVersion (h <<< 80 ||| l <<< 64 ||| s <<< 48 ||| n) 6 =
      2 ^ 64 * (2 ^ 16 * h + (2 ^ 12 * 6 + l)) + (2 ^ 48 * (2 ^ 14 * 2 + s) + n) := by
  have hl16 : l < 2 ^ 16 := by omega
  have hs16 : s < 2 ^ 16 := by omega
  have htime : h <<< 80 ||| l <<< 64 = (2 ^ 16 * h + l) <<< 64 := by
    rw [← BitFields.shiftLeft_or hl16, Nat.shiftLeft_or_distrib, ← Nat.shiftLeft_add]
  have hclock : (2 ^ 16 * h + l) <<< 64 ||| s <<< 48 = (2 ^ 16 * (2 ^ 16 * h + l) + s) <<< 48 := by
    rw [← BitFields.shiftLeft_or hs16, Nat.shiftLeft_or_distrib, ← Nat.shiftLeft_add]
  -- the two bits of the variant are free
  have hvariant : Nat.ldiff s 0xC000 ||| 0x8000 = 2 ^ 14 * 2 + s := by
    rw [show 0xC000 = 3 <<< 14 from rfl, BitFields.ldiff_of_lt hs,
      show 0x8000 = 2 <<< 14 from rfl, BitFields.or_of_lt hs]
  have hlow : Nat.ldiff s 0xC000 < 2 ^ 16 := BitFields.ldiff_lt hs16 _
  have hrest : 2 ^ 48 * (2 ^ 14 * 2 + s) + n < 2 ^ 64 := by omega
  have hver : Nat.ldiff l 0xF000 ||| 6 <<< 12 = 2 ^ 12 * 6 + l := by
    rw [show 0xF000 = 0xF <<< 12 from rfl, BitFields.ldiff_of_lt hl, BitFields.or_of_lt hl]
  rw [htime, hclock, BitFields.shiftLeft_or hn, withVersion, BitFields.ldiff_shiftLeft hn,
    BitFields.ldiff_low hs16 (by decide), BitFields.or_shiftLeft hn,
    BitFields.or_low hlow (by decide), hvariant]
  have hsplit : 2 ^ 48 * (2 ^ 16 * (2 ^ 16 * h + l) + (2 ^ 14 * 2 + s)) + n =
      2 ^ 64 * (2 ^ 16 * h + l) + (2 ^ 48 * (2 ^ 14 * 2 + s) + n) := by omega
  rw [hsplit, BitFields.ldiff_shiftLeft hrest, BitFields.ldiff_low hl16 (by decide),
    show 6 <<< 76 = (6 <<< 12) <<< 64 from rfl, BitFields.or_shiftLeft hrest,
    BitFields.or_low (BitFields.ldiff_lt hl16 _) (by decide), hver]

/-- An id has the bits of its timestamp above everything else but the version. -/
theorem uuid6_eq (last : Option Int) (c : Uuid6Call) :
    ∃ rest < 2 ^ 64, uuid6 last c =
      2 ^ 64 * (2 ^ 16 * lowBits 48 (nextTimestamp last c >>> (12 : Nat)) +
        (2 ^ 12 * 6 + lowBits 12 (nextTimestamp last c))) + rest := by
  have hs := lowBits_lt 14 c.clockSeq
  have hn := lowBits_lt 48 c.node
  refine ⟨2 ^ 48 * (2 ^ 14 * 2 + lowBits 14 c.clockSeq) + lowBits 48 c.node, by omega, ?_⟩
  exact withVersion_fields _ _ _ _ (lowBits_lt 12 _) hs hn

section Fields
variable {t : Int} (h0 : 0 ≤ t) (ht : t < 2 ^ 60)
include h0 ht

theorem lowBits_shiftRight : lowBits 48 (t >>> (12 : Nat)) = t.toNat / 2 ^ 12 := by
  rw [lowBits, Int.shiftRight_eq_div_pow]
  omega

omit ht in
theorem lowBits_twelve : lowBits 12 t = t.toNat % 2 ^ 12 := by
  rw [lowBits]
  omega

end Fields

theorem uuid6_lt (last : Option Int) (c : Uuid6Call) : uuid6 last c < 16 ^ 32 := by
  obtain ⟨rest, hrest, heq⟩ := uuid6_eq last c
  have hh := lowBits_lt 48 (nextTimestamp last c >>> (12 : Nat))
  have hl := lowBits_lt 12 (nextTimestamp last c)
  rw [heq]
  omega

/-- Later timestamps give greater ids, whatever the other fields are. -/
theorem uuid6_lt_uuid6 {last last' : Option Int} {c c' : Uuid6Call}
    (h0 : 0 ≤ nextTimestamp last c) (hlt : nextTimestamp last c < nextTimestamp last' c')
    (hmax : nextTimestamp last' c' < 2 ^ 60) : uuid6 last c < uuid6 last' c' := by
  obtain ⟨rest, hrest, heq⟩ := uuid6_eq last c
  obtain ⟨rest', hrest', heq'⟩ := uuid6_eq last' c'
  rw [heq, heq', lowBits_shiftRight h0 (by omega), lowBits_twelve h0,
    lowBits_shiftRight (by omega) hmax, lowBits_twelve (by omega)]
  omega

theorem uuidTime_uuid6 {last : Option Int} {c : Uuid6Call} (h0 : 0 ≤ nextTimestamp last c)
    (hmax : nextTimestamp last c < 2 ^ 60) :
    uuidTime (uuid6 last c) = (nextTimestamp last c).toNat := by
  obtain ⟨rest, hrest, heq⟩ := uuid6_eq last c
  rw [heq, lowBits_shiftRight h0 hmax, lowBits_twelve h0]
  generalize hn : (nextTimestamp last c).toNat = n
  have hlt : n < 2 ^ 60 := by omega
  have hlow : n / 2 ^ 12 % 2 ^ 16 < 2 ^ 16 := Nat.mod_lt _ (by decide)
  have hmid : n / 2 ^ 12 % 2 ^ 16 * 2 ^ 12 + n % 2 ^ 12 < 2 ^ 28 := by omega
  unfold uuidTime
  simp only [Nat.shiftRight_eq_div_pow]
  have h1 : (2 ^ 64 * (2 ^ 16 * (n / 2 ^ 12) + (2 ^ 12 * 6 + n % 2 ^ 12)) + rest) / 2 ^ 96 =
      n / 2 ^ 28 := by omega
  have h2 : (2 ^ 64 * (2 ^ 16 * (n / 2 ^ 12) + (2 ^ 12 * 6 + n % 2 ^ 12)) + rest) / 2 ^ 80 % 2 ^ 16 =
      n / 2 ^ 12 % 2 ^ 16 := by omega
  have h3 : (2 ^ 64 * (2 ^ 16 * (n / 2 ^ 12) + (2 ^ 12 * 6 + n % 2 ^ 12)) + rest) / 2 ^ 64 % 2 ^ 16 %
      2 ^ 12 = n % 2 ^ 12 := by omega
  rw [h1, h2, h3, Nat.or_assoc, BitFields.shiftLeft_or (by omega : n % 2 ^ 12 < 2 ^ 12),
    BitFields.shiftLeft_or (by omega)]
  omega

/- ── The texts of the ids ──────────────────────────────────────── -/

theorem hyphenated_lt_hyphenated_iff : ∀ (widths : List Nat) {a b : List Char},
    a.length = b.length → (hyphenated widths a < hyphenated widths b ↔ a < b)
  | [], _, _, _ => Iff.rfl
  | k :: widths, a, b, h => by
    have htake : (a.take k).length = (b.take k).length := by
      rw [List.length_take, List.length_take, h]
    have hdrop : (a.drop k).length = (b.drop k).length := by
      rw [List.length_drop, List.length_drop, h]
    have ih := hyphenated_lt_hyphenated_iff widths hdrop
    have hcons : '-' :: hyphenated widths (a.drop k) < '-' :: hyphenated widths (b.drop k) ↔
        a.drop k < b.drop k := by
      rw [List.cons_lt_cons_iff, ih]
      simp
    calc hyphenated (k :: widths) a < hyphenated (k :: widths) b
        ↔ a.take k < b.take k ∨ a.take k = b.take k ∧ a.drop k < b.drop k := by
          rw [hyphenated, hyphenated, TextOrder.append_lt_append_iff htake, hcons]
      _ ↔ a.take k ++ a.drop k < b.take k ++ b.drop k :=
          (TextOrder.append_lt_append_iff htake).symm
      _ ↔ a < b := by rw [List.take_append_drop, List.take_append_drop]

theorem uuidText_lt_uuidText_iff {m n : Nat} (hm : m < 16 ^ 32) (hn : n < 16 ^ 32) :
    uuidText m < uuidText n ↔ m < n := by
  have hlen : (Numerals.padded 16 32 m).length = (Numerals.padded 16 32 n).length := by
    rw [Numerals.length_padded (by decide) (by decide) hm,
      Numerals.length_padded (by decide) (by decide) hn]
  rw [uuidText, uuidText, String.lt_iff_toList_lt, String.toList_ofList, String.toList_ofList,
    hyphenated_lt_hyphenated_iff _ hlen,
    Numerals.padded_lt_padded_iff (by decide) (by decide) (by decide) hm hn]

/- ── The ids of a process ──────────────────────────────────────── -/

/-- The clock reads a time that the 60 bits of a timestamp hold, with room for the
    calls that are made while it stands still. -/
def InRange (calls : List Uuid6Call) : Prop :=
  ∀ c ∈ calls, 0 ≤ c.ticks ∧ c.ticks + calls.length ≤ 2 ^ 60

instance InRange.decidable (calls : List Uuid6Call) : Decidable (InRange calls) :=
  inferInstanceAs (Decidable (∀ c ∈ calls, 0 ≤ c.ticks ∧ c.ticks + calls.length ≤ 2 ^ 60))

theorem lt_nextTimestamp {last : Option Int} {l : Int} (h : l ∈ last) (c : Uuid6Call) :
    l < nextTimestamp last c := by
  rw [Option.mem_def] at h
  rw [h]
  simp only [nextTimestamp]
  split <;> omega

theorem ticks_le_nextTimestamp (last : Option Int) (c : Uuid6Call) :
    c.ticks ≤ nextTimestamp last c := by
  cases last with
  | none => exact le_refl _
  | some l =>
    simp only [nextTimestamp]
    split <;> omega

/-- What a call leaves room for, the remaining calls still have. -/
theorem nextTimestamp_add_le {last : Option Int} {c : Uuid6Call} {n : Nat} {m : Int}
    (hc : c.ticks + (n + 1) ≤ m) (hl : ∀ l ∈ last, l + (n + 1) < m) :
    nextTimestamp last c + n < m := by
  cases last with
  | none =>
    show c.ticks + n < m
    omega
  | some l =>
    have hl := hl l rfl
    simp only [nextTimestamp]
    split <;> omega

/-- The timestamps of a process increase, from above the last one. -/
theorem timestamps_spec : ∀ (calls : List Uuid6Call) (last : Option Int) (m : Int),
    (∀ c ∈ calls, 0 ≤ c.ticks ∧ c.ticks + calls.length ≤ m) →
    (∀ l ∈ last, l + calls.length < m) →
    (timestamps last calls).Pairwise (· < ·) ∧
      ∀ t ∈ timestamps last calls, (∀ l ∈ last, l < t) ∧ 0 ≤ t ∧ t < m
  | [], _, _, _, _ => ⟨List.Pairwise.nil, fun _ h => absurd h List.not_mem_nil⟩
  | c :: calls, last, m, hc, hl => by
    obtain ⟨hc0, hcm⟩ := hc c List.mem_cons_self
    rw [List.length_cons] at hcm hc hl
    push_cast at hcm hc hl
    have hnext := nextTimestamp_add_le hcm hl
    have hticks := ticks_le_nextTimestamp last c
    obtain ⟨hpair, hrange⟩ := timestamps_spec calls (some (nextTimestamp last c)) m
      (fun d hd => by
        obtain ⟨h0, hm⟩ := hc d (List.mem_cons_of_mem c hd)
        exact ⟨h0, by omega⟩)
      (fun l h => by
        cases h
        exact hnext)
    refine ⟨List.pairwise_cons.mpr ⟨fun t ht => (hrange t ht).1 _ rfl, hpair⟩, ?_⟩
    intro t ht
    rcases List.mem_cons.mp ht with rfl | ht
    · exact ⟨fun l h => lt_nextTimestamp h c, by omega, by omega⟩
    · obtain ⟨hlast, h0, hm⟩ := hrange t ht
      exact ⟨fun l h => lt_trans (lt_nextTimestamp h c) (hlast _ rfl), h0, hm⟩

/-- The ids compare as the timestamps. -/
theorem drawn_spec : ∀ (calls : List Uuid6Call) (last : Option Int),
    (timestamps last calls).Pairwise (· < ·) →
    (∀ t ∈ timestamps last calls, 0 ≤ t ∧ t < 2 ^ 60) →
    (drawn last calls).Pairwise (· < ·) ∧
      (drawn last calls).map uuidTime = (timestamps last calls).map Int.toNat ∧
      ∀ u ∈ drawn last calls, u < 16 ^ 32 ∧ ∀ (last' : Option Int) (c' : Uuid6Call),
        0 ≤ nextTimestamp last' c' → (∀ t ∈ timestamps last calls, nextTimestamp last' c' < t) →
          uuid6 last' c' < u
  | [], _, _, _ => ⟨List.Pairwise.nil, rfl, fun _ h => absurd h List.not_mem_nil⟩
  | c :: calls, last, hpair, hrange => by
    obtain ⟨hlt, hpair⟩ := List.pairwise_cons.mp hpair
    obtain ⟨h0, hm⟩ := hrange _ List.mem_cons_self
    obtain ⟨hp, ht, hu⟩ := drawn_spec calls (some (nextTimestamp last c)) hpair
      fun t h => hrange t (List.mem_cons_of_mem _ h)
    refine ⟨List.pairwise_cons.mpr ⟨fun u h => (hu u h).2 last c h0 hlt, hp⟩, ?_, ?_⟩
    · show uuidTime (uuid6 last c) :: _ = _ :: _
      rw [uuidTime_uuid6 h0 hm, ht]
    · intro u h
      rcases List.mem_cons.mp h with rfl | h
      · exact ⟨uuid6_lt last c, fun last' c' h0' hlt' =>
          uuid6_lt_uuid6 h0' (hlt' _ List.mem_cons_self) hm⟩
      · exact ⟨(hu u h).1, fun last' c' h0' hlt' =>
          (hu u h).2 last' c' h0' fun t ht => hlt' t (List.mem_cons_of_mem _ ht)⟩

/-- Whatever the clock reads, forwards or backwards, and whatever the other fields are:
    the ids of a process increase as texts, and their `time` is the timestamp. -/
theorem drawIds_pairwise_lt (calls : List Uuid6Call) (h : InRange calls) :
    (drawIds calls).Pairwise (· < ·) ∧
      (drawn none calls).map uuidTime = (timestamps none calls).map Int.toNat := by
  obtain ⟨hpair, hrange⟩ := timestamps_spec calls none (2 ^ 60) h fun _ h => by cases h
  obtain ⟨hp, ht, hu⟩ := drawn_spec calls none hpair fun t ht => (hrange t ht).2
  refine ⟨?_, ht⟩
  rw [drawIds, List.pairwise_map]
  exact hp.imp_of_mem fun ha hb hab =>
    (uuidText_lt_uuidText_iff (hu _ ha).1 (hu _ hb).1).mpr hab

/-- The clock stands still, and then goes back. -/
def stuckCalls : List Uuid6Call :=
  [⟨1700000000000000000, -2, 5⟩, ⟨1700000000000000000, -1, 3⟩, ⟨1600000000000000000, 0, 1⟩]

theorem drawIds_pairwise_lt_stuck : InRange stuckCalls ∧
    ((drawIds stuckCalls).Pairwise (· < ·) ∧
      (drawn none stuckCalls).map uuidTime = (timestamps none stuckCalls).map Int.toNat) :=
  ⟨by decide, drawIds_pairwise_lt stuckCalls (by decide)⟩

end LangGraph
