import Mathlib.Data.List.GetD
import Mathlib.Tactic

/-!
# Speakers of a recording

`cluster_fragments` merges the fragments of a recording into speakers, then places what
could not be embedded, folds slight speakers and moves each fragment to the voice it most
resembles. Similarities are exact numbers of an ordered field, with `sqrt` its square root.
The experiment hooks stand at their defaults.
-/
namespace ScribeLocal.Asr

structure SpeakerTurn where
  startMs : ℤ
  endMs : ℤ

/-- One window speaker: a stretch of a single voice, before anything is decided about which
recording-wide speaker it belongs to. -/
structure Fragment (K : Type*) where
  turns : List SpeakerTurn
  embedding : Option (List K)
  speechMs : ℤ

def minSpeakerSpeechMs : ℤ := 3000

def minSpeakerShare : ℚ := 1 / 100

def maxInferredSpeakers : ℕ := 12

def maxCohesionSteps : ℕ := 4

def minClustersToJudge : ℕ := 3

/-- Whether a cluster holding `ms` of `total` is a person. -/
def substantial (total ms : ℤ) : Bool :=
  minSpeakerSpeechMs ≤ ms && (total ≤ 0 || minSpeakerShare ≤ (ms : ℚ) / total)

/-! ## Vectors -/

section Vectors
variable {K : Type*} [Field K] [LinearOrder K] (sqrt : K → K)

def cohesionRatio : K := 73 / 100

def relativeDrop : K := 4 / 5

def peopleDrop : K := 1 / 5

/-- `f32::EPSILON`. -/
def epsilon : K := 1 / 2 ^ 23

/-- `f32::MAX`, and `f32::MIN` is its negative. -/
def f32Max : K := (2 ^ 24 - 1) * 2 ^ 104

def norm (v : List K) : K := sqrt (v.map fun x => x * x).sum

def cosine (a b : List K) : K :=
  if a.isEmpty ∨ a.length ≠ b.length then 0
  else if norm sqrt a ≤ epsilon ∨ norm sqrt b ≤ epsilon then 0
  else (List.zipWith (· * ·) a b).sum / (norm sqrt a * norm sqrt b)

def l2Normalize (v : List K) : List K :=
  if epsilon < norm sqrt v then v.map (· / norm sqrt v) else v

def median (values : List K) : Option K :=
  if values.isEmpty then none
  else
    let sorted := values.insertionSort (· ≤ ·)
    let mid := sorted.length / 2
    some (if sorted.length % 2 = 0 then (sorted.getD (mid - 1) 0 + sorted.getD mid 0) / 2
      else sorted.getD mid 0)

omit [Field K] in
theorem insertionSort_perm {values values' : List K} (h : values.Perm values') :
    values.insertionSort (· ≤ ·) = values'.insertionSort (· ≤ ·) :=
  (((List.perm_insertionSort _ _).trans h).trans (List.perm_insertionSort _ _).symm).eq_of_pairwise'
    (List.pairwise_insertionSort _ _) (List.pairwise_insertionSort _ _)

theorem median_perm {values values' : List K} (h : values.Perm values') :
    median values = median values' := by
  rw [median, median, insertionSort_perm h, h.isEmpty_eq]

/-- The median stands between the two in the middle, which are one where the number is odd. -/
theorem median_between [IsStrictOrderedRing K] {values : List K} {mid : K}
    (h : median values = some mid) :
    (values.insertionSort (· ≤ ·)).getD ((values.length - 1) / 2) 0 ≤ mid ∧
      mid ≤ (values.insertionSort (· ≤ ·)).getD (values.length / 2) 0 := by
  rw [median] at h
  split at h
  · cases h
  · rename_i hne
    have hpos : 0 < values.length := List.length_pos_of_ne_nil (by simpa using hne)
    have hsorted := List.pairwise_iff_getElem.mp
      (List.pairwise_insertionSort (· ≤ · : K → K → Prop) values)
    dsimp only at h
    rw [List.length_insertionSort] at h
    rw [← Option.some.inj h]
    split
    · rename_i heven
      have hlow : values.length / 2 - 1 = (values.length - 1) / 2 := by omega
      have hle : (values.insertionSort (· ≤ ·)).getD ((values.length - 1) / 2) 0 ≤
          (values.insertionSort (· ≤ ·)).getD (values.length / 2) 0 := by
        rw [List.getD_eq_getElem _ _ (by rw [List.length_insertionSort]; omega),
          List.getD_eq_getElem _ _ (by rw [List.length_insertionSort]; omega)]
        exact hsorted _ _ _ _ (by omega)
      rw [hlow]
      constructor <;> linarith
    · rename_i hodd
      have hlow : (values.length - 1) / 2 = values.length / 2 := by omega
      rw [hlow]
      exact ⟨le_rfl, le_rfl⟩

omit [Field K] in
/-- What stands in a sorted list up to a value that is small enough is small enough too. -/
theorem lt_countP_of_sorted {l : List K} (h : l.Pairwise (· ≤ ·)) {mid : K} {i : ℕ}
    (hi : i < l.length) (hle : l[i] ≤ mid) : i < l.countP (· ≤ mid) := by
  induction l generalizing i with
  | nil => cases hi
  | cons x l ih =>
    obtain ⟨hfirst, hrest⟩ := List.pairwise_cons.mp h
    cases i with
    | zero =>
      rw [List.countP_cons_of_pos (by simpa using hle)]
      omega
    | succ i =>
      have hi' : i < l.length := by simpa using hi
      have hx : x ≤ mid := (hfirst _ (List.getElem_mem hi')).trans hle
      rw [List.countP_cons_of_pos (by simpa using hx)]
      have := ih hrest hi' hle
      omega

omit [Field K] in
/-- And from a value on that is great enough. -/
theorem length_le_countP_of_sorted {l : List K} (h : l.Pairwise (· ≤ ·)) {mid : K} {i : ℕ}
    (hi : i < l.length) (hle : mid ≤ l[i]) : l.length ≤ i + l.countP (mid ≤ ·) := by
  induction l generalizing i with
  | nil => cases hi
  | cons x l ih =>
    obtain ⟨hfirst, hrest⟩ := List.pairwise_cons.mp h
    cases i with
    | zero =>
      rw [List.countP_eq_length.mpr, Nat.zero_add]
      intro y hy
      rcases List.mem_cons.mp hy with rfl | hy
      · simpa using hle
      · simpa using hle.trans (hfirst y hy)
    | succ i =>
      have htail := ih hrest (by simpa using hi) hle
      have hcons := (List.sublist_cons_self x l).countP_le (p := fun y => decide (mid ≤ y))
      rw [List.length_cons]
      omega

/-- Half of the values or more do not exceed the median, and half or more do not fall below it. -/
theorem median_middle [IsStrictOrderedRing K] {values : List K} {mid : K}
    (h : median values = some mid) :
    values.length ≤ 2 * values.countP (· ≤ mid) ∧ values.length ≤ 2 * values.countP (mid ≤ ·) := by
  obtain ⟨hlow, hhigh⟩ := median_between h
  have hperm := List.perm_insertionSort (· ≤ · : K → K → Prop) values
  have hsorted := List.pairwise_insertionSort (· ≤ · : K → K → Prop) values
  have hne : values ≠ [] := by
    rintro rfl
    cases h
  have hpos := List.length_pos_of_ne_nil hne
  have hlength : (values.insertionSort (· ≤ ·)).length = values.length :=
    List.length_insertionSort _ _
  rw [List.getD_eq_getElem _ _ (by omega)] at hlow hhigh
  have hbelow := lt_countP_of_sorted hsorted _ hlow
  have habove := length_le_countP_of_sorted hsorted _ hhigh
  rw [hperm.countP_eq] at hbelow habove
  omega

end Vectors

/-! ## Merging -/

section Merging
variable {K : Type*}

/-- The embedding a comparison can use. -/
def Fragment.usable (f : Fragment K) : Option (List K) := f.embedding.filter fun e => !e.isEmpty

def usableAt (fragments : List (Fragment K)) (i : ℕ) : Option (List K) :=
  fragments[i]?.bind Fragment.usable

def speechAt (fragments : List (Fragment K)) (i : ℕ) : ℤ :=
  fragments[i]?.elim 0 fun f => max f.speechMs 0

/-- The fragments that can be compared. -/
def embedded (fragments : List (Fragment K)) : List ℕ :=
  (List.range fragments.length).filter fun i => (usableAt fragments i).isSome

/-- An entry of `history`: the clusters before the merge, what it cost and which pair joined. -/
structure Merge (K : Type*) where
  live : ℕ
  sim : K
  pair : ℕ × ℕ

/-- The variables of the merge loop. The entry of `substantial` at `k` counts the people after
`k` merges. -/
structure Merging (K : Type*) where
  sim : ℕ → ℕ → K
  alive : ℕ → Bool
  size : ℕ → K
  speech : ℕ → ℤ
  history : List (Merge K)
  peopleMerges : List (ℕ × K)
  substantial : List ℕ

def countSubstantial (n : ℕ) (total : ℤ) (alive : ℕ → Bool) (speech : ℕ → ℤ) : ℕ :=
  (List.range n).countP fun k => alive k && substantial total (speech k)

variable [Field K] [LinearOrder K]

/-- The pair of live clusters most alike, the first one on a tie. -/
def Merging.best (n : ℕ) (s : Merging K) : Option (ℕ × ℕ) :=
  (((List.range n).flatMap fun i => (List.range' (i + 1) (n - (i + 1))).map fun j => (i, j)).filter
    fun p => s.alive p.1 && s.alive p.2).argmax fun p => s.sim p.1 p.2

/-- One turn of the loop, the average linkage kept by the Lance-Williams update. -/
def Merging.join (n : ℕ) (total : ℤ) (live : ℕ) (s : Merging K) (p : ℕ × ℕ) : Merging K :=
  let i := p.1
  let j := p.2
  let wi := s.size i
  let wj := s.size j
  let touched k := s.alive k && k != i && k != j
  let merged k := (s.sim i k * wi + s.sim j k * wj) / (wi + wj)
  let speech := Function.update s.speech i (s.speech i + s.speech j)
  let alive := Function.update s.alive j false
  { sim := fun a b =>
      if a = i ∧ touched b then merged b else if b = i ∧ touched a then merged a else s.sim a b
    alive := alive
    size := Function.update s.size i (wi + wj)
    speech := speech
    history := s.history ++ [⟨live, s.sim i j, p⟩]
    peopleMerges :=
      if Asr.substantial total (s.speech i) && Asr.substantial total (s.speech j) then
        s.peopleMerges ++ [(s.history.length, s.sim i j)]
      else s.peopleMerges
    substantial := s.substantial ++ [countSubstantial n total alive speech] }

/-- The loop `while live > 1`. -/
def Merging.run (n : ℕ) (total : ℤ) : ℕ → Merging K → Merging K
  | live + 2, s =>
    match s.best n with
    | some p => Merging.run n total (live + 1) (s.join n total (live + 2) p)
    | none => s
  | _, s => s

variable (sqrt : K → K)

/-- The pairwise similarity over the embeddable fragments. -/
def similarity (fragments : List (Fragment K)) (a b : ℕ) : K :=
  match (embedded fragments)[a]?.bind (usableAt fragments),
    (embedded fragments)[b]?.bind (usableAt fragments) with
  | some ea, some eb =>
    if a < b then cosine sqrt ea eb else if b < a then cosine sqrt eb ea else 0
  | _, _ => 0

def embeddedSpeech (fragments : List (Fragment K)) : ℤ :=
  ((embedded fragments).map (speechAt fragments)).sum

/-- Every embedded fragment starts as its own cluster. -/
def Merging.start (fragments : List (Fragment K)) : Merging K :=
  let speech i := (embedded fragments)[i]?.elim 0 (speechAt fragments)
  { sim := similarity sqrt fragments
    alive := fun _ => true
    size := fun _ => 1
    speech := speech
    history := []
    peopleMerges := []
    substantial := [countSubstantial (embedded fragments).length (embeddedSpeech fragments)
      (fun _ => true) speech] }

/-- The whole merge sequence. -/
def merging (fragments : List (Fragment K)) : Merging K :=
  Merging.run (embedded fragments).length (embeddedSpeech fragments) (embedded fragments).length
    (Merging.start sqrt fragments)

end Merging

/-! ## The cut -/

section Cut
variable {K : Type*}

/-- The members of each cluster while merges are replayed, and which are not absorbed. -/
structure Replay where
  members : ℕ → List ℕ
  alive : ℕ → Bool

def Replay.absorb (r : Replay) (p : ℕ × ℕ) : Replay where
  members := Function.update (Function.update r.members p.2 []) p.1
    (r.members p.1 ++ r.members p.2)
  alive := Function.update r.alive p.2 false

def Replay.clusters (n : ℕ) (r : Replay) : List (List ℕ) :=
  ((List.range n).filter r.alive).map r.members

def Replay.start (embedded : List ℕ) : Replay where
  members i := embedded[i]?.toList
  alive _ := true

/-- The partition that holding `cut` merges of `history` produces. -/
def replay (n : ℕ) (history : List (Merge K)) (cut : ℕ) (embedded : List ℕ) : List (List ℕ) :=
  (((history.take cut).map Merge.pair).foldl Replay.absorb (Replay.start embedded)).clusters n

variable [Field K] [LinearOrder K]

/-- How many merges to keep, the walk of `choose_cut` from its `m`-th entry on. -/
def chooseCut (accepted : List K) (m : ℕ) : List (Merge K) → ℕ
  | [] => m
  | ⟨live, sim, _⟩ :: history =>
    if live ≤ maxInferredSpeakers ∧ sim < relativeDrop * (median accepted).getD 1 then m
    else chooseCut (accepted ++ [sim]) (m + 1) history

def choosePeopleCut (people : List (ℕ × K)) : Option ℕ :=
  let index k := (people.getD k (0, 0)).1
  let sim k := (people.getD k (0, 0)).2
  if people.length < 2 then none
  else
    match (List.range (people.length - 2)).find? fun k => peopleDrop ≤ sim k - sim (k + 2) with
    | some k =>
      some (if sim (k + 1) - sim (k + 2) ≤ sim k - sim (k + 1) then index (k + 1)
        else index (k + 2))
    | none => if people.length = 2 ∧ peopleDrop ≤ sim 0 - sim 1 then some (index 1) else none

/-- Where the recording itself says to stop: the reading that finds more speakers wins. -/
def discovered (s : Merging K) : ℕ :=
  let merged := chooseCut [] 0 s.history
  (choosePeopleCut s.peopleMerges).elim merged fun p => min p merged

variable (sqrt : K → K)

/-- The least similar pair of fragments inside one cluster. -/
def clusterWorstPair (fragments : List (Fragment K)) (members : List ℕ) : Option K :=
  let embs := members.filterMap (usableAt fragments)
  if embs.length < 2 then none
  else some ((embs.tails.flatMap fun t => (t.tail).map fun b => cosine sqrt (t.headD []) b).foldl min
    f32Max)

/-- Undoes merges while the loosest cluster is far looser than the median one. -/
def stepBack (fragments : List (Fragment K)) (history : List (Merge K)) : ℕ → ℕ → ℕ
  | 0, cut => cut
  | _, 0 => 0
  | steps + 1, cut + 1 =>
    let worsts := (replay (embedded fragments).length history (cut + 1) (embedded fragments)).filterMap
      (clusterWorstPair sqrt fragments)
    if worsts.length < minClustersToJudge then cut + 1
    else
      match median worsts with
      | none => cut + 1
      | some mid =>
        if 0 < mid ∧ worsts.foldl min f32Max / mid < cohesionRatio then
          stepBack fragments history steps cut
        else cut + 1

/-- The stated count, as far as there are fragments for it. -/
def target (n : ℕ) (expected : Option ℤ) : Option ℕ :=
  (expected.filter fun v => 1 ≤ v).map fun v => min v.toNat n

/-- How many merges are kept. A stated count picks the last point that holds it and is not
stepped back from. -/
def cut (fragments : List (Fragment K)) (expected : Option ℤ) : ℕ :=
  let s := merging sqrt fragments
  match target (embedded fragments).length expected with
  | none => stepBack sqrt fragments s.history maxCohesionSteps (discovered s)
  | some t =>
    ((List.range s.substantial.length).reverse.find? fun k => s.substantial[k]? == some t).getD
      (discovered s)

end Cut

/-! ## After the cut -/

section Passes
variable {K : Type*}

/-- The speaker of each fragment, negative while it has none. -/
abbrev Assignment := ℕ → ℤ

def assign (clusters : List (List ℕ)) : Assignment :=
  clusters.zipIdx.foldl
    (fun a c => c.1.foldl (fun a fragment => Function.update a fragment (c.2 : ℤ)) a) fun _ => -1

def Fragment.mid (f : Fragment K) : ℤ :=
  if f.turns.isEmpty then 0
  else (f.turns.map fun (t : SpeakerTurn) => (t.startMs + t.endMs).tdiv 2).sum.tdiv f.turns.length

def midAt (fragments : List (Fragment K)) (i : ℕ) : ℤ := fragments[i]?.elim 0 Fragment.mid

/-- Speaker of the assigned fragment whose turns sit closest in time to `target`. -/
def nearestAssigned (fragments : List (Fragment K)) (a : Assignment) (target : ℕ) : Option ℤ :=
  (((List.range fragments.length).filter fun i => 0 ≤ a i).argmin fun i =>
    (midAt fragments i - midAt fragments target).natAbs).map a

/-- A fragment with no usable embedding joins the speaker holding the nearest turn. -/
def placeOne (fragments : List (Fragment K)) (a : Assignment) (i : ℕ) : Assignment :=
  if 0 ≤ a i then a else Function.update a i ((nearestAssigned fragments a i).getD 0)

def place (fragments : List (Fragment K)) (a : Assignment) : Assignment :=
  (List.range fragments.length).foldl (placeOne fragments) a

/-- The speakers in use, in order. -/
def seen (m : ℕ) (a : Assignment) : List ℤ :=
  ((List.range m).map a).dedup.insertionSort (· ≤ ·)

/-- Keeps the indices contiguous. -/
def renumber (m : ℕ) (a : Assignment) : Assignment := fun i => (seen m a).idxOf (a i)

def speechOf (fragments : List (Fragment K)) (a : Assignment) (c : ℤ) : ℤ :=
  (((List.range fragments.length).filter fun i => a i = c).map (speechAt fragments)).sum

/-- The speakers that stand: they hold enough of the speech to be somebody. -/
def surviving (fragments : List (Fragment K)) (a : Assignment) : List ℤ :=
  let total := ((seen fragments.length a).map (speechOf fragments a)).sum
  (seen fragments.length a).filter fun c => substantial total (speechOf fragments a c)

variable [Field K] [LinearOrder K] (sqrt : K → K)

def Fragment.weight (f : Fragment K) : K := ((max f.speechMs 1 : ℤ) : K) / 1000

def addWeighted (sum : List K) (emb : List K) (w : K) : List K :=
  List.zipWith (fun a b => a + b * w) sum emb

/-- A voice per surviving cluster, weighted by how much speech backs it. -/
def foldCentroid (fragments : List (Fragment K)) (a : Assignment) (c : ℤ) : Option (List K) :=
  let entry := fragments.zipIdx.foldl (fun (entry : Option (List K × K)) f =>
    match f.1.embedding with
    | none => entry
    | some emb =>
      if a f.2 = c then
        let (sum, weight) := entry.getD (List.replicate emb.length 0, 0)
        let sum := if sum.length ≠ emb.length then List.replicate emb.length 0 else sum
        some (addWeighted sum emb f.1.weight, weight + f.1.weight)
      else entry) none
  entry.map fun (sum, weight) =>
    l2Normalize sqrt (if 0 < weight then sum.map (· / weight) else sum)

/-- The surviving voice an embedding is closest to, the lowest index on a tie. -/
def foldTarget (fragments : List (Fragment K)) (a : Assignment) (emb : List K) : Option ℤ :=
  ((surviving fragments a).filterMap fun c =>
    (foldCentroid sqrt fragments a c).map fun centroid => (c, cosine sqrt centroid emb)).argmax
    Prod.snd |>.map Prod.fst

/-- Folds clusters holding too little speech to be a participant into the voice they most
resemble. -/
def foldSlightSpeakers (fragments : List (Fragment K)) (a : Assignment) : Assignment :=
  let m := fragments.length
  let surviving := surviving fragments a
  if surviving.isEmpty ∨ surviving.length = (seen m a).length then a
  else
    renumber m fun i =>
      if a i ∈ surviving then a i
      else
        ((fragments[i]?.bind Fragment.embedding).bind (foldTarget sqrt fragments a)).getD
          (surviving.headD 0)

/-- A speaker's voice: the speech-weighted mean of its fragments. -/
def voiceOf (fragments : List (Fragment K)) (a : Assignment) (c : ℤ) : Option (List K) :=
  let entry := fragments.zipIdx.foldl (fun (entry : Option (List K × K)) f =>
    match f.1.usable with
    | none => entry
    | some emb =>
      if a f.2 = c then
        let (sum, weight) := entry.getD (List.replicate emb.length 0, 0)
        if sum.length ≠ emb.length then some (sum, weight)
        else some (addWeighted sum emb f.1.weight, weight + f.1.weight)
      else entry) none
  entry.map fun (sum, _) => l2Normalize sqrt sum

def voices (fragments : List (Fragment K)) (a : Assignment) : List (ℤ × List K) :=
  (seen fragments.length a).filterMap fun c => (voiceOf sqrt fragments a c).map fun v => (c, v)

/-- The voice an embedding most resembles, the lowest index on a tie. -/
def nearestVoice (voices : List (ℤ × List K)) (own : ℤ) (emb : List K) : ℤ :=
  (voices.foldl (fun (best : ℤ × K) v =>
    if v.2.length ≠ emb.length then best
    else if best.2 < cosine sqrt v.2 emb then (v.1, cosine sqrt v.2 emb) else best)
    (own, -f32Max)).1

/-- Each fragment moved to the speaker whose voice it most resembles. -/
def revoiced (fragments : List (Fragment K)) (a : Assignment) : Assignment := fun i =>
  match usableAt fragments i with
  | none => a i
  | some emb => nearestVoice sqrt (voices sqrt fragments a) (a i) emb

def refineAssignment (fragments : List (Fragment K)) : ℕ → Assignment → Assignment
  | 0, a => renumber fragments.length a
  | passes + 1, a =>
    if (voices sqrt fragments a).length < 2 then a
    else
      let b := revoiced sqrt fragments a
      if (List.range fragments.length).all fun i => b i == a i then renumber fragments.length b
      else refineAssignment fragments passes b

/-- The speaker of every fragment. -/
def clusterFragments (fragments : List (Fragment K)) (expected : Option ℤ) : List ℤ :=
  if (embedded fragments).isEmpty then List.replicate fragments.length 0
  else
    let clusters := replay (embedded fragments).length (merging sqrt fragments).history
      (cut sqrt fragments expected) (embedded fragments)
    let placed := place fragments (assign clusters)
    (List.range fragments.length).map
      (refineAssignment sqrt fragments 1 (foldSlightSpeakers sqrt fragments placed))

end Passes

end ScribeLocal.Asr
