/-!
# Words with their times

The recognizer returns tokens with parallel timestamps and durations; `build_words`
groups them into words.
-/
namespace ScribeLocal.Asr

structure AsrWord where
  text : String
  startMs : Int64
  endMs : Int64
  conf : Float32

structure Transcript where
  text : String
  words : List AsrWord

/-- What the recognizer returns for one clip: pieces of words, with the start and the
length of each in seconds. -/
structure RecognizerResult where
  text : String
  tokens : List String
  timestamps : Option (List Float32)
  durations : Option (List Float32)

/-! ## Text -/

def isWhitespace (c : Char) : Bool :=
  9 ≤ c.val && c.val ≤ 13 || c.val == 0x20 || c.val == 0x85 || c.val == 0xA0 || c.val == 0x1680 ||
    0x2000 ≤ c.val && c.val ≤ 0x200A || c.val == 0x2028 || c.val == 0x2029 || c.val == 0x202F ||
    c.val == 0x205F || c.val == 0x3000

def trimStart (s : List Char) : List Char := s.dropWhile isWhitespace

def trim (s : List Char) : List Char := (trimStart (trimStart s).reverse).reverse

def splitWhitespace (s : String) : List String :=
  (s.toList.splitOnP isWhitespace).filterMap fun cs =>
    if cs.isEmpty then none else some (String.ofList cs)

/-! ## Without token times -/

/-- Whitespace-split `text` and spread the words evenly over `clipMs`. -/
def spreadEvenly (text : String) (clipMs : Int64) : List AsrWord :=
  let parts := splitWhitespace text
  let n := Int64.ofNat parts.length
  let step := if 0 < n then max clipMs 0 / n else 0
  parts.zipIdx.map fun (w, i) =>
    let s := step * Int64.ofNat i
    -- the last word absorbs any rounding remainder up to the clip end
    ⟨w, s, if Int64.ofNat i = n - 1 then max clipMs s else s + step, 1⟩

/-! ## With token times -/

def secToMs (s : Float32) : Int64 := (s.toFloat * 1000).round.toInt64

/-- The words so far, and the word that is being put together. -/
structure Pieces where
  words : List AsrWord
  text : List Char
  start : Option Int64
  stop : Int64

def Pieces.flush (p : Pieces) : Pieces where
  words :=
    if (trim p.text).isEmpty then p.words
    else p.words ++
      [⟨String.ofList (trim p.text), p.start.getD 0, max p.stop (p.start.getD 0), 1⟩]
  text := []
  start := none
  stop := p.stop

/-- A leading space marker denotes the start of a new word. -/
def startsWord (tok : List Char) : Bool := tok.head? == some '▁' || tok.head? == some ' '

def Pieces.token (p : Pieces) (tok : List Char) (startMs durMs : Int64) : Pieces :=
  let p := if startsWord tok && p.start.isSome then p.flush else p
  { p with
    text := p.text ++ trimStart (tok.dropWhile (· == '▁'))
    start := p.start <|> some startMs
    stop := max (startMs + durMs) p.stop }

def pieces (tokens : List String) (ts : List Float32) (durations : Option (List Float32)) :
    Pieces :=
  (tokens.zip ts).zipIdx.foldl
    (fun p tok => p.token tok.1.1.toList (secToMs tok.1.2)
      (((durations.bind fun d => d[tok.2]?).map secToMs).getD 0))
    ⟨[], [], none, 0⟩

def buildWords (text : String) (tokens : List String) (timestamps durations : Option (List Float32))
    (clipMs : Int64) : List AsrWord :=
  match timestamps with
  | none => spreadEvenly text clipMs
  | some ts =>
    if tokens.isEmpty || tokens.length != ts.length then spreadEvenly text clipMs
    else
      let words := (pieces tokens ts durations).flush.words
      let parts := splitWhitespace text
      -- a model without markers collapses everything into one word
      if words.length ≤ 1 && 1 < parts.length then
        let spanStart := (words.head?.map AsrWord.startMs).getD 0
        let spanEnd := max ((words.head?.map AsrWord.endMs).getD 0) spanStart
        let step := max (spanEnd - spanStart) 0 / max (Int64.ofNat parts.length) 1
        parts.zipIdx.map fun (w, i) =>
          let s := spanStart + step * Int64.ofNat i
          ⟨w, s, s + step, 1⟩
      else words

@[simp] theorem spreadEvenly_empty (clipMs : Int64) : spreadEvenly "" clipMs = [] := by
  simp [spreadEvenly, splitWhitespace]

end ScribeLocal.Asr
