import ScribeLocal.RankFusion
import ScribeLocal.Server.Content

/-! # Hybrid search over retrieval chunks

Two rankings of the chunks, by keyword and by distance, fused by reciprocal rank. What the text
search and the vector index make of a chunk are parameters, and so are the quotients
`1.0 / (k + rank)` as the server's decimal arithmetic rounds them.
-/
namespace ScribeLocal.Search
open RankFusion

/-- A row of `chunks`. -/
structure IndexedChunk extends Chunk where
  id : ℕ
  deriving DecidableEq, Repr

/-- A row of `recording_speakers`. -/
structure Appearance where
  recordingId : Uuid
  localIdx : ℤ
  speakerId : Option Uuid
  deriving DecidableEq, Repr

/-- The tables a search reads, with their primary keys. -/
structure Corpus where
  chunks : List IndexedChunk
  createdAt : Uuid → Time
  title : Uuid → Option String
  appearances : List Appearance
  displayName : Uuid → Option String
  ids_nodup : (chunks.map IndexedChunk.id).Nodup
  appearances_nodup : (appearances.map fun p => (p.recordingId, p.localIdx)).Nodup

structure SearchFilters where
  fromTime : Option Time := none
  toTime : Option Time := none
  speakerId : Option Uuid := none
  recordingId : Option Uuid := none

/-- What the indexes say of the chunks for one query. -/
structure Query (K : Type*) where
  hits : IndexedChunk → Bool
  rank : IndexedChunk → K
  embedded : IndexedChunk → Bool
  distance : IndexedChunk → K

structure SearchHit where
  recordingId : Uuid
  recordingTitle : Option String
  startMs : ℤ
  endMs : ℤ
  text : String
  speaker : Option String
  score : ℚ
  deriving DecidableEq, Repr

/-- `filter_clause`. -/
def SearchFilters.admits (f : SearchFilters) (db : Corpus) (c : IndexedChunk) : Bool :=
  f.fromTime.all (fun t => decide (t ≤ db.createdAt c.recordingId)) &&
  f.toTime.all (fun t => decide (db.createdAt c.recordingId ≤ t)) &&
  f.speakerId.all (fun s => db.appearances.any fun p =>
    p.recordingId == c.recordingId && some p.localIdx == c.localIdx && p.speakerId == some s) &&
  f.recordingId.all (fun r => c.recordingId == r)

/-- The display name of the chunk's speaker, else its number. -/
def Corpus.speaker (db : Corpus) (c : IndexedChunk) : Option String :=
  let person := (db.appearances.find? fun p =>
    p.recordingId == c.recordingId && some p.localIdx == c.localIdx).bind Appearance.speakerId
  (person.bind db.displayName).orElse fun _ => c.localIdx.map fun idx => s!"Speaker {idx}"

def Corpus.hit (db : Corpus) (c : IndexedChunk) (score : ℚ) : SearchHit where
  recordingId := c.recordingId
  recordingTitle := db.title c.recordingId
  startMs := c.startMs
  endMs := c.endMs
  text := c.text
  speaker := db.speaker c
  score := score

variable {K : Type*} [LinearOrder K]

/-- The keyword ranking: by `ts_rank_cd` descending, then by id. -/
def keywordRanking (db : Corpus) (q : Query K) (f : SearchFilters) : List IndexedChunk :=
  (db.chunks.filter fun c => q.hits c && f.admits db c).insertionSort fun a b =>
    q.rank b < q.rank a ∨ (q.rank a = q.rank b ∧ a.id ≤ b.id)

/-- The semantic ranking: by distance, then by id. The rows reach `ORDER BY … LIMIT` in this
order already. -/
def semanticRanking (db : Corpus) (q : Query K) (f : SearchFilters) : List IndexedChunk :=
  (db.chunks.filter fun c => q.embedded c && f.admits db c).insertionSort fun a b =>
    q.distance a < q.distance b ∨ (q.distance a = q.distance b ∧ a.id ≤ b.id)

/-- Both rankings, as ids. -/
def rankings (db : Corpus) (q : Query K) (f : SearchFilters) : List (List ℕ) :=
  [(keywordRanking db q f).map IndexedChunk.id, (semanticRanking db q f).map IndexedChunk.id]

/-- The candidates of both arms: a few times `limit` gives the fusion room to re-rank. -/
def pools (db : Corpus) (q : Query K) (f : SearchFilters) (limit : ℤ) : List (List ℕ) :=
  (rankings db q f).map (List.take (max limit 1 * 4).toNat)

/-- `ORDER BY f.score DESC, c.id`. -/
def Above (x y : IndexedChunk × ℚ) : Prop := y.2 < x.2 ∨ (x.2 = y.2 ∧ x.1.id ≤ y.1.id)

instance : DecidableRel Above := fun x y => by
  unfold Above
  infer_instance

instance : Std.Total Above := ⟨fun x y => by
  unfold Above
  -- equal scores are told apart by the ids
  rcases lt_trichotomy x.2 y.2 with h | h | h
  · exact .inr (.inl h)
  · rcases le_total x.1.id y.1.id with hid | hid
    · exact .inl (.inr ⟨h, hid⟩)
    · exact .inr (.inr ⟨h.symm, hid⟩)
  · exact .inl (.inl h)⟩

instance : IsTrans (IndexedChunk × ℚ) Above := ⟨fun x y z hxy hyz => by
  unfold Above at *
  rcases hxy with hxy | ⟨hxy, hid⟩
  · rcases hyz with hyz | ⟨hyz, -⟩
    · exact .inl (hyz.trans hxy)
    · exact .inl (hyz ▸ hxy)
  · rcases hyz with hyz | ⟨hyz, hid'⟩
    · exact .inl (hxy ▸ hyz)
    · exact .inr ⟨hxy.trans hyz, hid.trans hid'⟩⟩

theorem Above.le {x y : IndexedChunk × ℚ} (h : Above x y) : y.2 ≤ x.2 := by
  rcases h with h | h
  · exact h.le
  · exact h.1.ge

/-- The rows of the fused ranking in the order they are returned in. -/
def ordered (w : Weights) (db : Corpus) (q : Query K) (f : SearchFilters) (limit : ℤ) :
    List (IndexedChunk × ℚ) :=
  let rows := (fuse w (pools db q f limit)).filterMap fun x =>
    (db.chunks.find? fun c => c.id == x.1).map fun c => (c, x.2)
  rows.insertionSort Above

/-- `hybrid_search`; a negative `LIMIT` is an error. -/
def hybridSearch (w : Weights) (db : Corpus) (q : Query K) (f : SearchFilters) (limit : ℤ) :
    Option (List SearchHit) :=
  if limit < 0 then none
  else some (((ordered w db q f limit).take limit.toNat).map fun x => db.hit x.1 x.2)

/-- The fused score of a chunk where no ranking is cut off. -/
def fullScore (w : Weights) (db : Corpus) (q : Query K) (f : SearchFilters) (c : IndexedChunk) : ℚ :=
  RankFusion.score w (rankings db q f) c.id

variable {w : Weights} {db : Corpus} {q : Query K} {f : SearchFilters} {limit : ℤ}
  {c d : IndexedChunk} {v : ℚ}

/-- A chunk the search may return. -/
def Eligible (db : Corpus) (q : Query K) (f : SearchFilters) (c : IndexedChunk) : Prop :=
  c ∈ db.chunks ∧ f.admits db c = true ∧ (q.hits c = true ∨ q.embedded c = true)

/-! ## The rankings -/

theorem mem_keywordRanking :
    c ∈ keywordRanking db q f ↔ c ∈ db.chunks ∧ q.hits c = true ∧ f.admits db c = true := by
  rw [keywordRanking, List.mem_insertionSort, List.mem_filter, Bool.and_eq_true]

theorem mem_semanticRanking :
    c ∈ semanticRanking db q f ↔ c ∈ db.chunks ∧ q.embedded c = true ∧ f.admits db c = true := by
  rw [semanticRanking, List.mem_insertionSort, List.mem_filter, Bool.and_eq_true]

theorem eq_of_id (hc : c ∈ db.chunks) (hd : d ∈ db.chunks) (h : c.id = d.id) : c = d :=
  List.inj_on_of_nodup_map db.ids_nodup hc hd h

theorem nodup_rankings : ∀ l ∈ rankings db q f, l.Nodup := by
  have hsorted {p : IndexedChunk → Bool} {R : IndexedChunk → IndexedChunk → Prop}
      [DecidableRel R] :
      (((db.chunks.filter p).insertionSort R).map IndexedChunk.id).Nodup := by
    rw [((List.perm_insertionSort R _).map _).nodup_iff]
    exact db.ids_nodup.sublist (List.filter_sublist.map _)
  intro l hl
  rcases List.mem_pair.mp hl with rfl | rfl
  · exact hsorted
  · exact hsorted

theorem nodup_pools : ∀ l ∈ pools db q f limit, l.Nodup := by
  intro l hl
  obtain ⟨full, hfull, rfl⟩ := List.mem_map.mp hl
  exact (nodup_rankings full hfull).sublist (List.take_sublist _ _)

/-- The ids that are ranked are those of the eligible chunks. -/
theorem exists_ranking_iff (hc : c ∈ db.chunks) :
    (∃ l ∈ rankings db q f, c.id ∈ l) ↔ Eligible db q f c := by
  have hid {l : List IndexedChunk} (hl : ∀ d ∈ l, d ∈ db.chunks) :
      c.id ∈ l.map IndexedChunk.id ↔ c ∈ l := by
    rw [List.mem_map]
    constructor
    · rintro ⟨d, hd, heq⟩
      rwa [← eq_of_id (hl d hd) hc heq]
    · exact fun hmem => ⟨c, hmem, rfl⟩
  simp only [rankings, List.mem_cons, List.not_mem_nil, or_false, exists_eq_or_imp,
    exists_eq_left]
  rw [hid fun d hd => (mem_keywordRanking.mp hd).1, hid fun d hd => (mem_semanticRanking.mp hd).1,
    mem_keywordRanking, mem_semanticRanking, Eligible]
  tauto

/-! ## The fused rows -/

theorem find_id (hc : c ∈ db.chunks) : (db.chunks.find? fun d => d.id == c.id) = some c := by
  cases hfind : db.chunks.find? fun d => d.id == c.id with
  | none =>
    rw [List.find?_eq_none] at hfind
    exact absurd (beq_self_eq_true c.id) (hfind c hc)
  | some d =>
    have hd := List.mem_of_find?_eq_some hfind
    have hid := List.find?_some hfind
    rw [eq_of_id hd hc (eq_of_beq hid)]

theorem mem_ordered : (c, v) ∈ ordered w db q f limit ↔ c ∈ db.chunks ∧
    (∃ l ∈ pools db q f limit, c.id ∈ l) ∧ v = RankFusion.score w (pools db q f limit) c.id := by
  unfold ordered
  rw [List.mem_insertionSort, List.mem_filterMap]
  constructor
  · rintro ⟨⟨id, u⟩, hmem, hfind⟩
    obtain ⟨d, hd, heq⟩ := Option.map_eq_some_iff.mp hfind
    cases heq
    have hin := List.mem_of_find?_eq_some hd
    have hid := List.find?_some hd
    obtain rfl : c.id = id := eq_of_beq hid
    exact ⟨hin, (mem_fuse nodup_pools).mp hmem⟩
  · rintro ⟨hin, hpool⟩
    refine ⟨(c.id, v), (mem_fuse nodup_pools).mpr hpool, ?_⟩
    rw [find_id hin]
    rfl

theorem nodup_ordered : ((ordered w db q f limit).map fun x => x.1.id).Nodup := by
  have hkeys (l : List (ℕ × ℚ)) : ((l.filterMap fun x =>
      (db.chunks.find? fun c => c.id == x.1).map fun c => (c, x.2)).map fun x => x.1.id).Sublist
        (l.map Prod.fst) := by
    induction l with
    | nil => exact List.Sublist.refl _
    | cons x l ih =>
      rw [List.filterMap_cons, List.map_cons]
      cases hfind : db.chunks.find? fun c => c.id == x.1 with
      | none => exact ih.cons _
      | some c =>
        have hid := List.find?_some hfind
        rw [Option.map_some, List.map_cons, eq_of_beq hid]
        exact ih.cons_cons _
  unfold ordered
  rw [((List.perm_insertionSort Above _).map _).nodup_iff]
  exact nodup_fuse.sublist (hkeys _)

/-- The rows the search returns. -/
def chosen (w : Weights) (db : Corpus) (q : Query K) (f : SearchFilters) (limit : ℤ) :
    List (IndexedChunk × ℚ) :=
  (ordered w db q f limit).take limit.toNat

/-- The weight of the first place the pools cut off. -/
def cutWeight (w : Weights) (limit : ℤ) : ℚ := w.weight ((max limit 1 * 4).toNat + 1)

theorem score_pools (id : ℕ) :
    RankFusion.score w (pools db q f limit) id ≤ RankFusion.score w (rankings db q f) id ∧
      RankFusion.score w (rankings db q f) id ≤
        RankFusion.score w (pools db q f limit) id + 2 * cutWeight w limit :=
  score_le_take

/-- A chunk that is left out scores no higher than one that is returned. -/
theorem score_le_of_left_out (hout : c ∉ (chosen w db q f limit).map Prod.fst)
    (hc : c ∈ db.chunks) {x : IndexedChunk × ℚ} (hx : x ∈ chosen w db q f limit) :
    RankFusion.score w (pools db q f limit) c.id ≤ x.2 := by
  have hxin := mem_ordered.mp (List.mem_of_mem_take hx)
  by_cases hpool : ∃ l ∈ pools db q f limit, c.id ∈ l
  · have hmem : (c, RankFusion.score w (pools db q f limit) c.id) ∈ ordered w db q f limit :=
      mem_ordered.mpr ⟨hc, hpool, rfl⟩
    have hsorted : (ordered w db q f limit).Pairwise Above := List.pairwise_insertionSort Above _
    rw [← List.take_append_drop limit.toNat (ordered w db q f limit)] at hmem hsorted
    rcases List.mem_append.mp hmem with hin | hin
    · exact absurd (List.mem_map.mpr ⟨_, hin, rfl⟩) hout
    · exact ((List.pairwise_append.mp hsorted).2.2 x hx _ hin).le
  · push Not at hpool
    rw [score_of_notMem hpool, hxin.2.2]
    exact score_nonneg

/-- What a search serves. -/
structure Served (w : Weights) (db : Corpus) (q : Query K) (f : SearchFilters) (limit : ℤ)
    (rows : List (IndexedChunk × ℚ)) : Prop where
  few : (rows.length : ℤ) ≤ limit
  distinct : (rows.map fun x => x.1.id).Nodup
  eligible : ∀ x ∈ rows, Eligible db q f x.1
  sorted : rows.Pairwise Above
  /-- Nothing eligible is missing from a list that is not full. -/
  whole : rows.length < limit → ∀ c, Eligible db q f c → c ∈ rows.map Prod.fst
  /-- What is missing from a full one scores hardly higher than what is returned, had no ranking
  been cut off. -/
  close : ∀ c, Eligible db q f c → c ∉ rows.map Prod.fst → ∀ x ∈ rows,
    fullScore w db q f c ≤ fullScore w db q f x.1 + 2 * cutWeight w limit
  /-- A chunk that both rankings prefer to a returned one is returned ahead of it. -/
  ahead : ∀ (j : ℕ) (x : IndexedChunk × ℚ), rows[j]? = some x → ∀ c ∈ db.chunks,
    (∀ l ∈ rankings db q f, Ahead l c.id x.1.id) →
      ∃ i < j, (rows[i]?).map Prod.fst = some c

/-- A pool that has been cut off fills the list on its own. -/
theorem exists_pool_of_short (hlimit : 0 ≤ limit)
    (hshort : (chosen w db q f limit).length < limit) (hc : Eligible db q f c) :
    ∃ l ∈ pools db q f limit, c.id ∈ l := by
  obtain ⟨l, hl, hmem⟩ := (exists_ranking_iff hc.1).mpr hc
  have hpool : l.take (max limit 1 * 4).toNat ∈ pools db q f limit := List.mem_map.mpr ⟨l, hl, rfl⟩
  refine ⟨_, hpool, ?_⟩
  by_contra hcut
  have hlong : (max limit 1 * 4).toNat ≤ l.length := by
    by_contra hlt
    rw [List.take_of_length_le (by omega)] at hcut
    exact hcut hmem
  have hsub : l.take (max limit 1 * 4).toNat ⊆ (ordered w db q f limit).map fun x => x.1.id := by
    intro id hid
    have hchunk : ∃ d ∈ db.chunks, d.id = id := by
      have hfull := List.mem_of_mem_take hid
      rcases List.mem_pair.mp hl with rfl | rfl
      · obtain ⟨d, hd, rfl⟩ := List.mem_map.mp hfull
        exact ⟨d, (mem_keywordRanking.mp hd).1, rfl⟩
      · obtain ⟨d, hd, rfl⟩ := List.mem_map.mp hfull
        exact ⟨d, (mem_semanticRanking.mp hd).1, rfl⟩
    obtain ⟨d, hd, rfl⟩ := hchunk
    exact List.mem_map.mpr ⟨(d, _), mem_ordered.mpr ⟨hd, ⟨_, hpool, hid⟩, rfl⟩, rfl⟩
  have hlen := ((nodup_pools _ hpool).subperm hsub).length_le
  rw [List.length_take, List.length_map] at hlen
  rw [chosen, List.length_take] at hshort
  omega

theorem whole_chosen (hlimit : 0 ≤ limit) (hshort : (chosen w db q f limit).length < limit)
    (hc : Eligible db q f c) : c ∈ (chosen w db q f limit).map Prod.fst := by
  have hpool := exists_pool_of_short hlimit hshort hc
  have hall : chosen w db q f limit = ordered w db q f limit := by
    apply List.take_of_length_le
    rw [chosen, List.length_take] at hshort
    omega
  rw [hall]
  exact List.mem_map.mpr ⟨(c, _), mem_ordered.mpr ⟨hc.1, hpool, rfl⟩, rfl⟩

theorem ahead_chosen {j : ℕ} {x : IndexedChunk × ℚ} (hx : (chosen w db q f limit)[j]? = some x)
    (hc : c ∈ db.chunks) (hahead : ∀ l ∈ rankings db q f, Ahead l c.id x.1.id) :
    ∃ i < j, ((chosen w db q f limit)[i]?).map Prod.fst = some c := by
  have hxin := mem_ordered.mp (List.mem_of_mem_take (List.mem_of_getElem? hx))
  have hahead' : ∀ l ∈ pools db q f limit, Ahead l c.id x.1.id := by
    intro l hl
    obtain ⟨full, hfull, rfl⟩ := List.mem_map.mp hl
    exact (hahead full hfull).take
  obtain ⟨l, hl, hmem⟩ := hxin.2.1
  have hlt : x.2 < RankFusion.score w (pools db q f limit) c.id := by
    rw [hxin.2.2]
    exact score_lt hahead' ⟨l, hl, hmem⟩
  have hcin : (c, RankFusion.score w (pools db q f limit) c.id) ∈ ordered w db q f limit :=
    mem_ordered.mpr ⟨hc, ⟨l, hl, (hahead' l hl hmem).1⟩, rfl⟩
  obtain ⟨i, hi, hget⟩ := List.getElem_of_mem hcin
  have hsorted : (ordered w db q f limit).Pairwise Above := List.pairwise_insertionSort Above _
  obtain ⟨hj, hgetj⟩ := List.getElem?_eq_some_iff.mp hx
  rw [chosen, List.length_take] at hj
  have hgetj' : (ordered w db q f limit)[j] = x := by
    rw [← hgetj]
    exact List.getElem_take.symm
  have hij : i < j := by
    by_contra hle
    rcases Nat.lt_or_eq_of_le (Nat.le_of_not_lt hle) with hji | rfl
    · have habove := (List.pairwise_iff_getElem.mp hsorted j i (by omega) hi hji).le
      rw [hget, hgetj'] at habove
      exact absurd habove (not_le.mpr hlt)
    · rw [hgetj'] at hget
      rw [hget] at hlt
      exact lt_irrefl _ hlt
  refine ⟨i, hij, ?_⟩
  rw [chosen, List.getElem?_take_of_lt (by omega), List.getElem?_eq_getElem hi, hget]
  rfl

/-- A search serves at most `limit` distinct chunks that pass the filters and that the text or the
vector index knows, best first; nothing eligible is missing from a list that is not full, and
what the pools cut off costs no chunk more than twice the weight of the first place they cut. -/
theorem hybridSearch_served (w : Weights) (db : Corpus) (q : Query K) (f : SearchFilters)
    (hlimit : 0 ≤ limit) : ∃ rows, hybridSearch w db q f limit =
      some (rows.map fun x => db.hit x.1 x.2) ∧ Served w db q f limit rows := by
  refine ⟨chosen w db q f limit, if_neg (not_lt.mpr hlimit), ?_⟩
  constructor
  · rw [chosen, List.length_take]
    omega
  · exact nodup_ordered.sublist ((List.take_sublist _ _).map _)
  · intro x hx
    obtain ⟨hin, ⟨l, hl, hmem⟩, -⟩ := mem_ordered.mp (List.mem_of_mem_take hx)
    obtain ⟨full, hfull, rfl⟩ := List.mem_map.mp hl
    exact (exists_ranking_iff hin).mp ⟨full, hfull, List.mem_of_mem_take hmem⟩
  · exact (List.pairwise_insertionSort Above _).sublist (List.take_sublist _ _)
  · exact fun hshort c hc => whole_chosen hlimit hshort hc
  · intro c hc hout x hx
    have hleft := score_le_of_left_out hout hc.1 hx
    have hxscore := (mem_ordered.mp (List.mem_of_mem_take hx)).2.2
    have hcut : fullScore w db q f c ≤
        RankFusion.score w (pools db q f limit) c.id + 2 * cutWeight w limit := (score_pools c.id).2
    have hfull : x.2 ≤ fullScore w db q f x.1 := hxscore ▸ (score_pools x.1.id).1
    linarith
  · exact fun j x hx c hc hahead => ahead_chosen hx hc hahead

/-- `1.0 / ($4 + rnk)` with `RRF_K` for `$4`, not rounded. -/
def reciprocal : Weights where
  weight n := 1 / (60 + n)
  pos n := by positivity
  anti a b h := one_div_lt_one_div_of_lt (by positivity) (by gcongr)

/-- Three chunks of one recording, the last of another speaker. -/
def standup : Corpus where
  chunks := [⟨⟨⟨some 0, 0, 900, "the sprint goal"⟩, 7⟩, 1⟩,
    ⟨⟨⟨some 1, 900, 1800, "goal of the sprint"⟩, 7⟩, 2⟩, ⟨⟨⟨some 0, 1800, 2700, "lunch"⟩, 7⟩, 3⟩]
  createdAt := fun _ => 0
  title := fun _ => some "Standup"
  appearances := [⟨7, 0, some 5⟩, ⟨7, 1, none⟩]
  displayName := fun _ => some "Karen"
  ids_nodup := by decide
  appearances_nodup := by decide

/-- The text search knows the first two chunks, the vector index all. -/
def sprint : Query ℕ where
  hits c := c.id != 3
  rank c := c.id
  embedded _ := true
  distance c := 10 - c.id

theorem hybridSearch_served_standup :
    hybridSearch reciprocal standup sprint {} 2 = some [
      ⟨7, some "Standup", 900, 1800, "goal of the sprint", some "Speaker 1", 1 / 61 + 1 / 62⟩,
      ⟨7, some "Standup", 0, 900, "the sprint goal", some "Karen", 1 / 62 + 1 / 63⟩] ∧
    ∃ rows, hybridSearch reciprocal standup sprint {} 2 =
      some (rows.map fun x => standup.hit x.1 x.2) ∧ Served reciprocal standup sprint {} 2 rows :=
  ⟨by decide +kernel, hybridSearch_served reciprocal standup sprint {} (by decide)⟩

end ScribeLocal.Search
