/-!
Reproducible random draws. A seed is spread over a key by a small generator; the key drives a stream of
words, twelve rounds of mixing for each block of sixteen; and draws up to a bound come from that stream
without bias. What is proved of the simulation holds whatever the generator is.
-/
namespace LazyHeap.Random

/-! ### Spreading a seed -/

private def spreadStep (s : UInt64) : UInt64 := s * 6364136223846793005 + 11634580027462260723

private def rotateRight (x n : UInt32) : UInt32 := (x >>> n) ||| (x <<< ((32 - n) % 32))

private def rotateLeft (x n : UInt32) : UInt32 := (x <<< n) ||| (x >>> (32 - n))

private def spreadWord (s : UInt64) : UInt32 :=
  rotateRight (((s >>> 18) ^^^ s) >>> 27).toUInt32 (s >>> 59).toUInt32

private def spread : Nat → UInt64 → List UInt32
  | 0, _ => []
  | n + 1, s =>
    let s := spreadStep s
    spreadWord s :: spread n s

/-- The key of eight words that a seed stands for. -/
def key (seed : UInt64) : List UInt32 := spread 8 seed

/-! ### The stream of words -/

def wordBound : Nat := 0x100000000

def wideBound : Nat := wordBound * wordBound

private def quarter (a b c d : Nat) (x : Array UInt32) : Array UInt32 :=
  let at' := fun (x : Array UInt32) (i : Nat) => x.getD i 0
  let mix := fun (x : Array UInt32) (i j k : Nat) (n : UInt32) =>
    let x := x.setIfInBounds i (at' x i + at' x j)
    x.setIfInBounds k (rotateLeft (at' x k ^^^ at' x i) n)
  mix (mix (mix (mix x a b d 16) c d b 12) a b d 8) c d b 7

private def doubleRound (x : Array UInt32) : Array UInt32 :=
  let x := quarter 3 7 11 15 (quarter 2 6 10 14 (quarter 1 5 9 13 (quarter 0 4 8 12 x)))
  quarter 3 4 9 14 (quarter 2 7 8 13 (quarter 1 6 11 12 (quarter 0 5 10 15 x)))

/-- Six double rounds are twelve rounds. -/
def doubleRounds : Nat := 6

/-- The sixteen words of a block: four constants, the key, the number of the block, and no nonce. -/
def block (key : List UInt32) (n : Nat) : Array UInt32 :=
  let start : Array UInt32 := #[0x61707865, 0x3320646e, 0x79622d32, 0x6b206574] ++ key.toArray ++
    #[UInt32.ofNat (n % wordBound), UInt32.ofNat (n / wordBound % wordBound), 0, 0]
  (doubleRounds.repeat doubleRound start).zipWith (· + ·) start

/-- A position in a stream of words. The words of the current block are at hand. -/
structure Stream where
  key : List UInt32
  block : Nat
  words : Array UInt32
  used : Nat

namespace Stream

def ofSeed (seed : UInt64) : Stream := ⟨Random.key seed, 0, Random.block (Random.key seed) 0, 0⟩

def next (s : Stream) : UInt32 × Stream :=
  match s.words[s.used]? with
  | some w => (w, { s with used := s.used + 1 })
  | none =>
    let words := Random.block s.key (s.block + 1)
    (words.getD 0 0, { s with block := s.block + 1, words, used := 1 })

/-- Two words make one of double width, the low half first. -/
def nextWide (s : Stream) : Nat × Stream :=
  let (low, s) := s.next
  let (high, s) := s.next
  (low.toNat + wordBound * high.toNat, s)

theorem nextWide_lt (s : Stream) : s.nextWide.1 < wideBound := by
  have hlow : s.next.1.toNat < wordBound := s.next.1.toNat_lt
  have hhigh : s.next.2.next.1.toNat < wordBound := s.next.2.next.1.toNat_lt
  show s.next.1.toNat + wordBound * s.next.2.next.1.toNat < wordBound * wordBound
  calc s.next.1.toNat + wordBound * s.next.2.next.1.toNat
      < wordBound + wordBound * s.next.2.next.1.toNat := Nat.add_lt_add_right hlow _
    _ = wordBound * (s.next.2.next.1.toNat + 1) := by rw [Nat.mul_succ, Nat.add_comm]
    _ ≤ wordBound * wordBound := Nat.mul_le_mul_left _ hhigh

/-- A number up to `n`, or nothing but the stream behind the words that were read: the last interval of the
wide words is incomplete, and a word that falls into it would favour the small numbers. -/
def tryUpTo (n : Nat) (s : Stream) : Stream ⊕ (Fin (n + 1) × Stream) :=
  let p := s.nextWide.1 * (n + 1)
  let zone := (n + 1) <<< (63 - (n + 1).log2) - 1
  if p % wideBound ≤ zone then
    .inr (⟨p / wideBound, Nat.div_lt_of_lt_mul (Nat.mul_lt_mul_of_pos_right s.nextWide_lt n.succ_pos)⟩, s.nextWide.2)
  else .inl s.nextWide.2

def upTo (n : Nat) (s : Stream) : Fin (n + 1) × Stream :=
  have : Nonempty (Fin (n + 1) × Stream) := ⟨0, s⟩
  Id.run (repeatM (fun s => pure (s.tryUpTo n)) s)

theorem upTo_eq (n : Nat) (s : Stream) : s.upTo n = (s.tryUpTo n).elim (upTo n) id := by
  have : Nonempty (Fin (n + 1) × Stream) := ⟨0, s⟩
  have hstep := repeatM_eq_of_monadTail (m := Id) (f := fun s => pure (tryUpTo n s)) s
  calc s.upTo n = Id.run (repeatM.body (fun s => pure (s.tryUpTo n)) (repeatM _) s) := congrArg Id.run hstep
    _ = (s.tryUpTo n).elim (upTo n) id := by cases h : s.tryUpTo n <;> simp [repeatM.body, h, upTo]

end Stream

end LazyHeap.Random
