import LangGraph.Stores.Namespaces
import LangGraph.Stores.Search

/- The namespaces that `SqliteStore` lists, compared with the component-wise
   listing (`Lists`) of the same content.

   Correspondence (source ↔ Lean):
     `_namespace_to_text(…, handle_wildcards=True)` ↔ `wildcardText`
     `prefix LIKE ?` of a condition                 ↔ `likeCondition`
     `instr`, the columns of `split`                ↔ `instr`, `SplitRow`
     the recursive part of `split`                  ↔ `splitStep`, `splitRows`
     `SELECT DISTINCT truncated AS prefix … WHERE`  ↔ `truncatedTexts`
     the query with ORDER BY and LIMIT              ↔ `listNamespaces`
   Labels are joined to one text, on which `%` reaches over the dots and LIKE does
   not tell the case of ASCII letters apart, and texts are sorted character by
   character, dots included. `sqlite_lists_iff` says which contents are listed
   as by their components all the same; that the truncation cuts after whole
   labels (`truncatedTexts_text`) needs nothing else. -/
namespace LangGraph.Stores.Sqlite

/-- `"%" if val == "*" else val` -/
def wildcard (label : String) : String := if label = "*" then "%" else label

def wildcardText (path : Namespace) : String := namespaceToText (path.map wildcard)

/-- `prefix LIKE ?` with the parameter of the condition. -/
def likeCondition (cond : MatchCondition) (text : List Char) : Bool :=
  let same := (Backend.sqlite false).same
  match cond.matchType with
  | .prefixed => Like.like same ((wildcardText cond.path).toList ++ ['%']) text
  | .suffixed => Like.like same ('%' :: (wildcardText cond.path).toList) text

/-! ### The recursive query -/

/-- `instr(text, c)`: the place of the first `c`, counted from 1, or 0. -/
def instr (text : List Char) (c : Char) : Nat := if c ∈ text then text.idxOf c + 1 else 0

/-- A row of `split`; the column `original` is not read. -/
structure SplitRow where
  truncated : List Char
  remainder : List Char
  depth : Nat
  deriving DecidableEq, Repr

/-- The row that the recursive SELECT adds for a row. -/
def splitStep (maxDepth : Int) (row : SplitRow) : Option SplitRow :=
  if row.remainder ≠ [] ∧ (row.depth : Int) < maxDepth then
    let dot := instr row.remainder '.'
    let label := row.remainder.take (if dot > 0 then dot - 1 else row.remainder.length)
    some {
      truncated := if row.depth = 0 then label else row.truncated ++ '.' :: label
      remainder := if dot > 0 then row.remainder.drop dot else []
      depth := row.depth + 1 }
  else none

/-- The rows that come of a row, in at most `fuel` steps. -/
def splitRows (maxDepth : Int) : Nat → SplitRow → List SplitRow
  | 0, row => [row]
  | fuel + 1, row =>
    row :: match splitStep maxDepth row with
      | some next => splitRows maxDepth fuel next
      | none => []

/-- The texts that the outer SELECT finds for one text of the table. The depth
    grows with each step and `splitStep` stops at `maxDepth`, so the fuel is enough. -/
def truncatedTexts (maxDepth : Int) (text : List Char) : List (List Char) :=
  ((splitRows maxDepth maxDepth.toNat ⟨[], text, 0⟩).filter fun row =>
    (row.depth : Int) = maxDepth ∨ row.remainder = []).map SplitRow.truncated

/-- `_get_batch_list_namespaces_queries` and `_batch_list_namespaces_ops`, for one operation. -/
def listNamespaces {E : Type} (t : Tables E) (op : ListNamespacesOp) :
    Except StoreErr (List Namespace) :=
  let prefixes := (t.store.keys.map fun k => k.1.toList).filter fun text =>
    op.conditions.all (likeCondition · text)
  let texts := match op.maxDepth with
    | some depth => prefixes.dedup.flatMap (truncatedTexts depth)
    | none => prefixes
  -- a parameter of a query has 64 bits
  if op.maxDepth.any (fun depth => decide (depth < -2 ^ 63 ∨ 2 ^ 63 ≤ depth)) then .error .overflow
  else
    (window (.sqlite false) op.limit op.offset
      (SortBy.sortBy id (texts.dedup.map String.ofList))).map fun rows => rows.map decodeNsText

/-! ### One label after the other -/

/-- The text of some labels. -/
abbrev joinDots (labels : List (List Char)) : List Char := ['.'].intercalate labels

theorem joinDots_cons (label : List Char) {labels : List (List Char)} (h : labels ≠ []) :
    joinDots (label :: labels) = label ++ '.' :: joinDots labels := by
  unfold joinDots
  rw [List.intercalate_cons_of_ne_nil h, List.append_assoc]
  rfl

theorem joinDots_concat (label : List Char) : ∀ {labels : List (List Char)}, labels ≠ [] →
    joinDots (labels ++ [label]) = joinDots labels ++ '.' :: label
  | [], h => absurd rfl h
  | [l], _ => by simp [joinDots, List.intercalate_cons_cons]
  | l :: l' :: ls, _ => by
    have ih := @joinDots_concat label (l' :: ls) (by simp)
    rw [List.cons_append, joinDots_cons l (by simp), ih, joinDots_cons l (by simp), List.append_assoc]
    rfl

theorem instr_of_not_mem {c : Char} {text : List Char} (h : c ∉ text) : instr text c = 0 := if_neg h

theorem instr_append {c : Char} {label : List Char} (h : c ∉ label) (rest : List Char) :
    instr (label ++ c :: rest) c = label.length + 1 := by
  unfold instr
  rw [if_pos (by simp), List.idxOf_append_of_notMem h, List.idxOf_cons_self]

/-- The labels of a text: not empty, without dots. -/
def PlainLabels (labels : List (List Char)) : Prop := ∀ label ∈ labels, label ≠ [] ∧ '.' ∉ label

theorem joinDots_ne_nil {label : List Char} {labels : List (List Char)}
    (h : PlainLabels (label :: labels)) : joinDots (label :: labels) ≠ [] := by
  have hlabel := (h label List.mem_cons_self).1
  cases labels with
  | nil => simpa [joinDots] using hlabel
  | cons l ls =>
    rw [joinDots_cons label (by simp)]
    simp

/-- The row after the labels `done`, with the labels `rest` to come. -/
def rowAt (done rest : List (List Char)) : SplitRow := ⟨joinDots done, joinDots rest, done.length⟩

/-- A step moves one label. -/
theorem splitStep_rowAt {maxDepth : Int} {done : List (List Char)} {label : List Char}
    {rest : List (List Char)} (h : PlainLabels (label :: rest)) (hdepth : (done.length : Int) < maxDepth) :
    splitStep maxDepth (rowAt done (label :: rest)) = some (rowAt (done ++ [label]) rest) := by
  have hdot := (h label List.mem_cons_self).2
  have htruncated : (if done.length = 0 then label else joinDots done ++ '.' :: label) =
      joinDots (done ++ [label]) := by
    cases done with
    | nil => simp [joinDots]
    | cons l ls => rw [if_neg (by simp), joinDots_concat label (by simp)]
  unfold splitStep rowAt
  rw [if_pos ⟨joinDots_ne_nil h, hdepth⟩]
  cases rest with
  | nil =>
    have htext : joinDots [label] = label := by simp [joinDots]
    simp only [htext, instr_of_not_mem hdot, gt_iff_lt, Nat.lt_irrefl, if_false, List.take_length,
      htruncated, List.length_append, List.length_singleton]
    rfl
  | cons l ls =>
    have htext := @joinDots_cons label (l :: ls) (by simp)
    simp only [htext, instr_append hdot, gt_iff_lt, Nat.zero_lt_succ, if_true, Nat.add_sub_cancel,
      List.take_left', htruncated, List.length_append, List.length_singleton]
    rw [show label ++ '.' :: joinDots (l :: ls) = (label ++ ['.']) ++ joinDots (l :: ls) by simp,
      List.drop_left' (by simp)]

/-- The rows end with the one that the outer SELECT takes. -/
theorem splitRows_rowAt {maxDepth : Int} : ∀ (fuel : Nat) (done rest : List (List Char)),
    PlainLabels rest → (done.length : Int) + fuel = maxDepth →
      ((splitRows maxDepth fuel (rowAt done rest)).filter fun row =>
        (row.depth : Int) = maxDepth ∨ row.remainder = []).map SplitRow.truncated =
          [joinDots (done ++ rest.take fuel)]
  | 0, done, rest, _, hdepth => by
    have hhere : (done.length : Int) = maxDepth := by omega
    simp [splitRows, rowAt, hhere]
  | fuel + 1, done, [], _, hdepth => by
    have hstop : splitStep maxDepth (rowAt done []) = none := by
      simp [splitStep, rowAt, joinDots]
    rw [splitRows, hstop]
    simp [rowAt, joinDots]
  | fuel + 1, done, label :: rest, h, hdepth => by
    have hne : ¬((rowAt done (label :: rest)).depth = maxDepth ∨
        (rowAt done (label :: rest)).remainder = []) :=
      not_or.mpr ⟨by show ¬((done.length : Int) = maxDepth); omega, joinDots_ne_nil h⟩
    have hlength : ((done ++ [label]).length : Int) + fuel = maxDepth := by
      rw [List.length_append, List.length_singleton]
      omega
    have ih := splitRows_rowAt fuel (done ++ [label]) rest
      (fun l hl => h l (List.mem_cons_of_mem _ hl)) hlength
    rw [splitRows, splitStep_rowAt h (by omega), List.filter_cons, if_neg (by rwa [decide_eq_true_iff])]
    refine ih.trans ?_
    rw [List.append_assoc]
    rfl

/-! ### What the query finds -/

theorem plainLabels_of_valid {ns : Namespace} (h : ValidNamespace ns) :
    PlainLabels (ns.map String.toList) := by
  intro l hl
  obtain ⟨label, hlabel, rfl⟩ := List.mem_map.mp hl
  exact ⟨fun he => h.label_ne label hlabel (String.toList_inj.mp he), h.no_dot label hlabel⟩

/-- The recursive query cuts a namespace after whole labels. -/
theorem truncatedTexts_text {ns : Namespace} (h : ValidNamespace ns) (depth : Nat) :
    truncatedTexts depth (namespaceToText ns).toList = [(namespaceToText (ns.take depth)).toList] := by
  have hrow : (⟨[], (namespaceToText ns).toList, 0⟩ : SplitRow) = rowAt [] (ns.map String.toList) := by
    rw [toList_namespaceToText]
    rfl
  unfold truncatedTexts
  rw [hrow, Int.toNat_natCast, splitRows_rowAt depth [] _ (plainLabels_of_valid h) (by simp),
    List.nil_append, ← List.map_take, toList_namespaceToText]

/-- A namespace that a row of the table has. -/
def Live {E : Type} (t : Tables E) (ns : Namespace) : Prop := ∃ k ∈ t.store.keys, decodeNsText k.1 = ns

/-- LIKE holds of the namespace's text for all conditions. -/
def LikeAll (op : ListNamespacesOp) (ns : Namespace) : Prop :=
  ∀ cond ∈ op.conditions, likeCondition cond (namespaceToText ns).toList = true

def MatchesAll (op : ListNamespacesOp) (ns : Namespace) : Prop := ∀ cond ∈ op.conditions, Matches cond ns

theorem like_wildcard {label pattern : String} (h : LabelMatches label pattern) :
    Like.like (Backend.sqlite false).same (wildcard pattern).toList label.toList = true := by
  unfold wildcard
  by_cases hp : pattern = "*"
  · rw [if_pos hp]
    exact Like.like_percent.mpr ⟨label.toList, [], by simp, rfl⟩
  · rw [if_neg hp, h.resolve_left hp]
    exact Like.like_self (Backend.same_self _) _

/-- Labels that match one by one match as a text. -/
theorem like_wildcardText {part path : Namespace} (h : List.Forall₂ LabelMatches part path) :
    Like.like (Backend.sqlite false).same (wildcardText path).toList (namespaceToText part).toList = true := by
  rw [wildcardText, toList_namespaceToText, toList_namespaceToText]
  induction h with
  | nil => rfl
  | @cons label pattern part path hlabel hrest ih =>
    cases hrest with
    | nil => simpa [List.intercalate_singleton] using like_wildcard hlabel
    | cons hnext hrest =>
      rw [List.map_cons, List.map_cons, List.map_cons]
      show Like.like _ (joinDots (_ :: _)) (joinDots (_ :: _)) = true
      rw [joinDots_cons _ (by simp), joinDots_cons _ (by simp)]
      exact Like.like_append (like_wildcard hlabel)
        (@Like.like_append _ ['.'] ['.'] (Like.like_self (Backend.same_self _) _) _ _ ih)

theorem toList_suffix {part ns : Namespace} (h : part <:+ ns) :
    (namespaceToText part).toList <:+ (namespaceToText ns).toList := by
  obtain ⟨before, rfl⟩ := h
  by_cases hpart : part = []
  · subst hpart
    exact List.nil_suffix
  by_cases hbefore : before = []
  · rw [hbefore, List.nil_append]
  unfold namespaceToText
  rw [String.intercalate_append_of_ne_nil hbefore hpart, String.toList_append, String.toList_append]
  exact List.suffix_append _ _

/-- LIKE loses no namespace. -/
theorem LikeAll.of_matches {op : ListNamespacesOp} {ns : Namespace} (h : MatchesAll op ns) :
    LikeAll op ns := by
  intro cond hcond
  have hmatch := h cond hcond
  obtain ⟨matchType, path⟩ := cond
  cases matchType with
  | prefixed =>
    obtain ⟨part, hpart, hall⟩ := hmatch
    exact Like.like_append_percent.mpr ⟨_, toList_prefix hpart, like_wildcardText hall⟩
  | suffixed =>
    obtain ⟨part, hpart, hall⟩ := hmatch
    obtain ⟨before, hbefore⟩ := toList_suffix hpart
    exact Like.like_percent.mpr ⟨before, _, hbefore.symm, like_wildcardText hall⟩

/-! ### The comparison -/

section Listed
variable {E : Type} {t : Tables E} {op : ListNamespacesOp}

/-- The sorted texts that the query pages through. -/
def listedTexts (t : Tables E) (op : ListNamespacesOp) : List String :=
  let prefixes := (t.store.keys.map fun k => k.1.toList).filter fun text =>
    op.conditions.all (likeCondition · text)
  let texts := match op.maxDepth with
    | some depth => prefixes.dedup.flatMap (truncatedTexts depth)
    | none => prefixes
  SortBy.sortBy id (texts.dedup.map String.ofList)

/-- A depth is at least 1 and has 64 bits. -/
def DepthOk (op : ListNamespacesOp) : Prop := ∀ depth, op.maxDepth = some depth → 1 ≤ depth ∧ depth < 2 ^ 63

theorem DepthOk.of_none (h : op.maxDepth = none) : DepthOk op := by
  intro depth hdepth
  rw [h] at hdepth
  cases hdepth

theorem listNamespaces_page (hdepth : DepthOk op) {n offset : Nat} (hn : n < 2 ^ 63)
    (ho : offset < 2 ^ 63) :
    listNamespaces t { op with limit := n, offset := offset } =
      .ok ((((listedTexts t op).map decodeNsText).drop offset).take n) := by
  have hfits : op.maxDepth.any (fun depth => decide (depth < -2 ^ 63 ∨ 2 ^ 63 ≤ depth)) = false := by
    cases hd : op.maxDepth with
    | none => rfl
    | some depth =>
      have h := hdepth depth hd
      simp only [Option.any_some, decide_eq_false_iff_not]
      omega
  have hwindow : ∀ texts : List String, window (.sqlite false) (n : Int) (offset : Int) texts =
      .ok ((texts.drop offset).take n) := by
    intro texts
    have hrange : ¬((n : Int) < -2 ^ 63 ∨ (2 : Int) ^ 63 ≤ n ∨ (offset : Int) < -2 ^ 63 ∨
        (2 : Int) ^ 63 ≤ offset) := by omega
    have hneg : ¬(n : Int) < 0 := by omega
    unfold window
    rw [if_neg hrange]
    simp [hneg]
  unfold listNamespaces
  simp only [hfits, Bool.false_eq_true, if_false]
  rw [show ∀ texts : List String, window (.sqlite false) ({ op with limit := (n : Int), offset := (offset : Int) }
    : ListNamespacesOp).limit _ texts = window (.sqlite false) (n : Int) (offset : Int) texts from
      fun _ => rfl, hwindow, ← List.map_drop, ← List.map_take]
  rfl

theorem truncate_take {depth : Int} (h : op.maxDepth = some depth) (hpos : 1 ≤ depth) (ns : Namespace) :
    op.truncate ns = ns.take depth.toNat := by
  have hneg : ¬depth < 0 := by omega
  simp [ListNamespacesOp.truncate, h, pySlice, hneg]

theorem valid_truncate (hdepth : DepthOk op) {ns : Namespace} (h : ValidNamespace ns) :
    ValidNamespace (op.truncate ns) := by
  cases hd : op.maxDepth with
  | none =>
    rw [ListNamespacesOp.truncate, hd]
    exact h
  | some depth =>
    have hpos := (hdepth depth hd).1
    rw [truncate_take hd hpos]
    refine ⟨?_, fun l hl => h.no_dot l (List.mem_of_mem_take hl),
      fun l hl => h.label_ne l (List.mem_of_mem_take hl)⟩
    intro hnil
    rcases List.take_eq_nil_iff.mp hnil with hzero | hns
    · omega
    · exact h.ne_nil hns

theorem mem_listedTexts (hvalid : ∀ k ∈ t.store.keys, ValidNamespace (decodeNsText k.1))
    (hdepth : DepthOk op) {text : String} : text ∈ listedTexts t op ↔
      ∃ ns, Live t ns ∧ LikeAll op ns ∧ namespaceToText (op.truncate ns) = text := by
  have hprefixes : ∀ cs : List Char, cs ∈ ((t.store.keys.map fun k => k.1.toList).filter fun text =>
      op.conditions.all (likeCondition · text)) ↔
        ∃ ns, Live t ns ∧ LikeAll op ns ∧ (namespaceToText ns).toList = cs := by
    intro cs
    rw [List.mem_filter, List.mem_map, List.all_eq_true]
    constructor
    · intro ⟨⟨k, hk, hcs⟩, hlike⟩
      refine ⟨decodeNsText k.1, ⟨k, hk, rfl⟩, ?_, ?_⟩
      · intro cond hcond
        rw [namespaceToText_decodeNsText, hcs]
        exact hlike cond hcond
      · rw [namespaceToText_decodeNsText, hcs]
    · intro ⟨ns, ⟨k, hk, hns⟩, hlike, hcs⟩
      refine ⟨⟨k, hk, ?_⟩, fun cond hcond => hcs ▸ hlike cond hcond⟩
      rw [← hcs, ← hns, namespaceToText_decodeNsText]
  unfold listedTexts
  rw [SortBy.mem_sortBy, List.mem_map]
  simp only [List.mem_dedup]
  cases hd : op.maxDepth with
  | none =>
    simp only [hprefixes]
    constructor
    · intro ⟨cs, ⟨ns, hlive, hlike, hcs⟩, htext⟩
      refine ⟨ns, hlive, hlike, ?_⟩
      rw [ListNamespacesOp.truncate, hd, ← htext, ← hcs, String.ofList_toList]
    · intro ⟨ns, hlive, hlike, htext⟩
      refine ⟨_, ⟨ns, hlive, hlike, rfl⟩, ?_⟩
      rw [ListNamespacesOp.truncate, hd] at htext
      rw [String.ofList_toList, htext]
  | some depth =>
    have hpos := (hdepth depth hd).1
    have hcut : ∀ ns, Live t ns → truncatedTexts depth (namespaceToText ns).toList =
        [(namespaceToText (op.truncate ns)).toList] := by
      intro ns ⟨k, hk, hns⟩
      have h := truncatedTexts_text (hns ▸ hvalid k hk) depth.toNat
      rw [Int.toNat_of_nonneg (by omega)] at h
      rw [h, truncate_take hd hpos]
    simp only [List.mem_flatMap, List.mem_dedup, hprefixes]
    constructor
    · intro ⟨cs, ⟨_, ⟨ns, hlive, hlike, rfl⟩, hcs⟩, htext⟩
      rw [hcut ns hlive, List.mem_singleton] at hcs
      refine ⟨ns, hlive, hlike, ?_⟩
      rw [← htext, hcs, String.ofList_toList]
    · intro ⟨ns, hlive, hlike, htext⟩
      refine ⟨_, ⟨_, ⟨ns, hlive, hlike, rfl⟩, by rw [hcut ns hlive]; exact List.mem_singleton_self _⟩, ?_⟩
      rw [String.ofList_toList, htext]

theorem mem_listed (hvalid : ∀ k ∈ t.store.keys, ValidNamespace (decodeNsText k.1))
    (hdepth : DepthOk op) {x : Namespace} : x ∈ (listedTexts t op).map decodeNsText ↔
      ∃ ns, Live t ns ∧ LikeAll op ns ∧ op.truncate ns = x := by
  have hdecode : ∀ ns, Live t ns →
      decodeNsText (namespaceToText (op.truncate ns)) = op.truncate ns := by
    intro ns ⟨k, hk, hns⟩
    exact decodeNsText_namespaceToText (valid_truncate hdepth (hns ▸ hvalid k hk))
  rw [List.mem_map]
  simp only [mem_listedTexts hvalid hdepth]
  constructor
  · intro ⟨_, ⟨ns, hlive, hlike, rfl⟩, hx⟩
    exact ⟨ns, hlive, hlike, (hdecode ns hlive).symm.trans hx⟩
  · intro ⟨ns, hlive, hlike, hx⟩
    exact ⟨_, ⟨ns, hlive, hlike, rfl⟩, (hdecode ns hlive).trans hx⟩

/-- The namespaces are listed in the order of their texts. -/
theorem pairwise_listed (t : Tables E) (op : ListNamespacesOp) :
    ((listedTexts t op).map decodeNsText).Pairwise fun x y => namespaceToText x < namespaceToText y := by
  rw [List.pairwise_map]
  simp only [namespaceToText_decodeNsText]
  exact SortBy.pairwise_lt_sortBy ((List.nodup_dedup _).map fun _ _ h => String.ofList_injective h)

/-- No more namespaces than rows. -/
theorem length_le_rows {all : List Namespace} (hnodup : all.Nodup)
    (h : ∀ x ∈ all, ∃ ns, Live t ns ∧ op.truncate ns = x) : all.length ≤ t.store.keys.length := by
  have hsub : all ⊆ t.store.keys.map fun k => op.truncate (decodeNsText k.1) := by
    intro x hx
    obtain ⟨ns, ⟨k, hk, rfl⟩, htrunc⟩ := h x hx
    exact List.mem_map.mpr ⟨k, hk, htrunc⟩
  have hle := (List.subperm_of_subset hnodup hsub).length_le
  rwa [List.length_map] at hle

/-- A namespace that LIKE finds is truncated to what a matching one is. -/
def SameTruncations (t : Tables E) (op : ListNamespacesOp) : Prop :=
  ∀ ns, Live t ns → LikeAll op ns →
    ∃ ns', Live t ns' ∧ MatchesAll op ns' ∧ op.truncate ns' = op.truncate ns

/-- The texts of the truncated namespaces sort as their labels. -/
def TextsInOrder (t : Tables E) (op : ListNamespacesOp) : Prop :=
  ∀ ns ns', Live t ns → MatchesAll op ns → Live t ns' → MatchesAll op ns' →
    op.truncate ns < op.truncate ns' →
      namespaceToText (op.truncate ns) < namespaceToText (op.truncate ns')

/-- Every page of the query is the page of the component-wise listing. -/
def ListsByLabels (t : Tables E) (op : ListNamespacesOp) : Prop :=
  ∀ n offset : Nat, n < 2 ^ 63 → offset < 2 ^ 63 →
    ∃ found, listNamespaces t { op with limit := n, offset := offset } = .ok found ∧
      Lists (Live t) { op with limit := n, offset := offset } found

/-- Every page of the query is the page of the component-wise listing exactly
    where LIKE finds nothing else, up to truncation, and the texts sort as the
    labels do. -/
theorem sqlite_lists_iff (hvalid : ∀ k ∈ t.store.keys, ValidNamespace (decodeNsText k.1))
    (hrows : t.store.keys.length < 2 ^ 63) (hdepth : DepthOk op) :
    ListsByLabels t op ↔ SameTruncations t op ∧ TextsInOrder t op := by
  let listed := (listedTexts t op).map decodeNsText
  have hmem : ∀ x, x ∈ listed ↔ ∃ ns, Live t ns ∧ LikeAll op ns ∧ op.truncate ns = x :=
    fun x => mem_listed hvalid hdepth
  have htexts := pairwise_listed t op
  have hnodup : listed.Nodup := by
    refine htexts.imp ?_
    intro x y hlt heq
    rw [heq] at hlt
    exact lt_irrefl _ hlt
  constructor
  · intro h
    -- one page holds everything
    obtain ⟨found, hfound, all, hall, hallmem, hpage⟩ := h t.store.keys.length 0 hrows (by omega)
    have hlisted : found = listed := by
      rw [listNamespaces_page hdepth hrows (by omega)] at hfound
      rw [← Except.ok.inj hfound, List.drop_zero]
      apply List.take_of_length_le
      refine @length_le_rows E t op _ hnodup fun x hx => ?_
      obtain ⟨ns, hlive, -, hx⟩ := (hmem x).mp hx
      exact ⟨ns, hlive, hx⟩
    have hsame : all = listed := by
      rw [← hlisted, hpage]
      refine ((pySlice_window all 0 t.store.keys.length).trans ?_).symm
      rw [List.drop_zero]
      apply List.take_of_length_le
      refine @length_le_rows E t op _ (hall.imp fun h => ne_of_lt h) fun x hx => ?_
      obtain ⟨ns, hlive, -, hx⟩ := (hallmem x).mp hx
      exact ⟨ns, hlive, hx⟩
    constructor
    · intro ns hlive hlike
      have hin : op.truncate ns ∈ all := hsame ▸ (hmem _).mpr ⟨ns, hlive, hlike, rfl⟩
      exact (hallmem _).mp hin
    · intro ns ns' hlive hmatch hlive' hmatch' hlt
      have hboth : listed.Pairwise fun x y => x < y ∧ namespaceToText x < namespaceToText y :=
        (hsame ▸ hall).and htexts
      have hin := (hmem _).mpr ⟨ns, hlive, LikeAll.of_matches hmatch, rfl⟩
      have hin' := (hmem _).mpr ⟨ns', hlive', LikeAll.of_matches hmatch', rfl⟩
      rcases SortBy.rel_or_rel_of_pairwise hboth hin hin' (ne_of_lt hlt) with h | h
      · exact h.2
      · exact absurd hlt (lt_asymm h.1)
  · intro ⟨hsame, horder⟩ n offset hn ho
    have hmatch : ∀ x, x ∈ listed ↔ ∃ ns, Live t ns ∧ MatchesAll op ns ∧ op.truncate ns = x := by
      intro x
      rw [hmem]
      constructor
      · intro ⟨ns, hlive, hlike, hx⟩
        obtain ⟨ns', hlive', hmatch', hx'⟩ := hsame ns hlive hlike
        exact ⟨ns', hlive', hmatch', hx'.trans hx⟩
      · intro ⟨ns, hlive, hmatch, hx⟩
        exact ⟨ns, hlive, LikeAll.of_matches hmatch, hx⟩
    refine ⟨_, listNamespaces_page hdepth hn ho, listed, ?_, hmatch, (pySlice_window listed offset n).symm⟩
    refine List.Pairwise.imp_of_mem ?_ htexts
    intro x y hx hy hlt
    obtain ⟨ns, hlive, hm, rfl⟩ := (hmatch x).mp hx
    obtain ⟨ns', hlive', hm', rfl⟩ := (hmatch y).mp hy
    rcases lt_trichotomy (op.truncate ns) (op.truncate ns') with h | h | h
    · exact h
    · rw [h] at hlt
      exact absurd hlt (lt_irrefl _)
    · exact absurd hlt (lt_asymm (horder ns' ns hlive' hm' hlive hm h))

end Listed

instance (op : ListNamespacesOp) (ns : Namespace) : Decidable (LikeAll op ns) :=
  inferInstanceAs (Decidable (∀ cond ∈ op.conditions, likeCondition cond (namespaceToText ns).toList = true))

instance (op : ListNamespacesOp) (ns : Namespace) : Decidable (MatchesAll op ns) :=
  decidable_of_iff (∀ cond ∈ op.conditions, doesMatch cond ns = true) <| by
    unfold MatchesAll
    simp only [doesMatch_iff]

/-- Two namespaces whose labels begin alike. -/
def userRows : Tables Unit where
  store := OrdDict.ofList (["users", "users2"].map fun text => ((text, "k"), ⟨.null, noon, noon, none, none⟩))
  vectors := ∅

def underUsers : ListNamespacesOp := { matchConditions := some [⟨.prefixed, ["users"]⟩] }

def underUsers2 : ListNamespacesOp := { matchConditions := some [⟨.prefixed, ["users2"]⟩] }

theorem userRows_valid : ∀ k ∈ userRows.store.keys, ValidNamespace (decodeNsText k.1) := by
  have hvalidate : ∀ k ∈ userRows.store.keys, validateNamespace (decodeNsText k.1) = true := by
    decide +kernel
  exact fun k hk => ValidNamespace.of_validate (hvalidate k hk)

theorem sqlite_lists_users2 : ListsByLabels userRows underUsers2 := by
  refine (sqlite_lists_iff userRows_valid (by decide +kernel) (DepthOk.of_none rfl)).mpr ⟨?_, ?_⟩
  · intro ns ⟨k, hk, hns⟩ hlike
    have hsame : ∀ k ∈ userRows.store.keys, LikeAll underUsers2 (decodeNsText k.1) →
        MatchesAll underUsers2 (decodeNsText k.1) := by decide +kernel
    exact ⟨ns, ⟨k, hk, hns⟩, hns ▸ hsame k hk (hns ▸ hlike), rfl⟩
  · intro ns ns' ⟨k, hk, hns⟩ hmatch ⟨k', hk', hns'⟩ hmatch' hlt
    have hsorted : ∀ k ∈ userRows.store.keys, ∀ k' ∈ userRows.store.keys,
        MatchesAll underUsers2 (decodeNsText k.1) → MatchesAll underUsers2 (decodeNsText k'.1) →
          decodeNsText k.1 = decodeNsText k'.1 := by decide +kernel
    have heq := hsorted k hk k' hk' (hns ▸ hmatch) (hns' ▸ hmatch')
    rw [← hns, ← hns', heq] at hlt
    exact absurd hlt (lt_irrefl _)

/-- The namespaces under `users` are listed with `users2` among them. -/
theorem not_sqlite_lists : ¬ ∀ (t : Tables Unit) (op : ListNamespacesOp),
    (∀ k ∈ t.store.keys, ValidNamespace (decodeNsText k.1)) → DepthOk op → ListsByLabels t op := by
  intro h
  obtain ⟨found, hfound, all, -, hmem, hpage⟩ := h userRows underUsers userRows_valid
    (DepthOk.of_none rfl) 10 0 (by decide) (by decide)
  have hlisted : listNamespaces userRows { underUsers with limit := (10 : Nat), offset := (0 : Nat) } =
      .ok ((((listedTexts userRows underUsers).map decodeNsText).drop 0).take 10) :=
    listNamespaces_page (DepthOk.of_none rfl) (by decide) (by decide)
  have hin : ["users2"] ∈ (((listedTexts userRows underUsers).map decodeNsText).drop 0).take 10 := by
    decide +kernel
  rw [← Except.ok.inj (hfound.symm.trans hlisted), hpage] at hin
  obtain ⟨ns, -, hmatch, rfl⟩ := (hmem _).mp (List.mem_of_mem_take (List.mem_of_mem_drop hin))
  have hno : ¬MatchesAll underUsers ["users2"] := by decide +kernel
  exact hno hmatch

end LangGraph.Stores.Sqlite
