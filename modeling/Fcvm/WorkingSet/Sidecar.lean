import Mathlib.Data.List.GetD
import Mathlib.Data.List.TakeWhile
import Fcvm.Library.Delimited
import Fcvm.WorkingSet.Runs

/-! How ranges get into a page set, and the file that keeps it (`PageSet::insert_range`, `encode` and `decode`). -/

namespace Fcvm.WorkingSet

open List Library

def MAX_MEM_LEN : ℕ := 2 ^ 40

/-- The identity of a memory image. -/
structure ImageKey where
  bytes : List UInt8
  length : bytes.length = 32

def setBit (words : List (BitVec 64)) (granule : ℕ) : List (BitVec 64) :=
  words.modify (granule / 64) fun word => word ||| 1#64 <<< (granule % 64)

def MAGIC : List UInt8 := [70, 67, 86, 77, 87, 83, 69, 84]

def VERSION : ℕ := 1

def HEADER_LEN : ℕ := 8 + 8 + 8 + 8 + 8 + 32

def u64At (buf : List UInt8) (off : ℕ) : ℕ := fromLittleEndian ((buf.drop off).take 8)

namespace PageSet

def insertRange (s : PageSet) (offset len : ℕ) : PageSet :=
  let first := offset / GRANULE
  let last := min (offset + (max len 1 - 1)) (2 ^ 64 - 1) / GRANULE
  let granules := range' first (min last (s.granules - 1) + 1 - first)
  { s with words := (granules.takeWhile (· < s.granules)).foldl setBit s.words }

def encode (s : PageSet) (key : ImageKey) (memLen : ℕ) : List UInt8 :=
  MAGIC ++ (littleEndian 8 VERSION ++ (littleEndian 8 GRANULE ++ (littleEndian 8 memLen ++ (littleEndian 8 s.granules ++
    (key.bytes ++ s.words.flatMap fun word => littleEndian 8 word.toNat)))))

def maskTail (granules : ℕ) (words : List (BitVec 64)) : List (BitVec 64) :=
  if granules % 64 = 0 then words
  else words.modify ((granules + 63) / 64 - 1) fun tail => tail &&& BitVec.allOnes 64 >>> (64 - granules % 64)

def decode (buf : List UInt8) (key : ImageKey) (memLen : ℕ) : Option PageSet :=
  let granules := u64At buf 32
  let words := (granules + 63) / 64
  if buf.length < HEADER_LEN then none
  else if buf.take 8 ≠ MAGIC then none
  else if u64At buf 8 ≠ VERSION then none
  else if u64At buf 16 ≠ GRANULE then none
  else if u64At buf 24 ≠ memLen then none
  else if granules ≠ granulesOf memLen then none
  else if (buf.drop 40).take 32 ≠ key.bytes then none
  else if buf.length < HEADER_LEN + words * 8 then none
  else
    let read := (range words).map fun i => BitVec.ofNat 64 (u64At buf (HEADER_LEN + i * 8))
    -- bits past the end of the image would produce runs outside the file
    some ⟨granules, maskTail granules read⟩

/-- The sets of an image: what `empty`, `insert_range` and `union_from` make of it. -/
inductive Made (memLen : ℕ) : PageSet → Prop
  | empty : Made memLen (empty memLen)
  | insert {s : PageSet} (hs : Made memLen s) (offset len : ℕ) : Made memLen (s.insertRange offset len)
  | union {s o : PageSet} (hs : Made memLen s) (ho : Made memLen o) : Made memLen (s.unionFrom o).1

/-- The words are those of the image, with no bit past its granules. -/
structure Whole (memLen : ℕ) (s : PageSet) : Prop extends Fits memLen s where
  tail : ∀ i, bit s.words i = true → i < s.granules

variable {s : PageSet} {memLen : ℕ} {words : List (BitVec 64)}

theorem bit_modify {f : BitVec 64 → BitVec 64} {n : ℕ} (hn : n < words.length) (i : ℕ) :
    bit (words.modify n f) i = if i / 64 = n then (f (words.getD n 0)).getLsbD (i % 64) else bit words i := by
  simp only [bit, getD_eq_getElem?_getD, getElem?_modify]
  by_cases h : i / 64 = n
  · simp [h, hn]
  · simp [h, Ne.symm h]

theorem bit_setBit {g : ℕ} (hg : g / 64 < words.length) (i : ℕ) :
    bit (setBit words g) i = (bit words i || decide (i = g)) := by
  rw [setBit, bit_modify hg]
  split
  case isTrue h =>
    have hone : (1#64 <<< (g % 64)).getLsbD (i % 64) = decide (i = g) := by
      rw [BitVec.getLsbD_shiftLeft, BitVec.getLsbD_one, Bool.eq_iff_iff]
      simp only [Bool.and_eq_true, Bool.not_eq_true', decide_eq_true_eq, decide_eq_false_iff_not]
      omega
    rw [BitVec.getLsbD_or, hone, bit, h]
  case isFalse h => simp [show i ≠ g by rintro rfl; exact h rfl]

theorem bit_foldl_setBit (words : List (BitVec 64)) (gs : List ℕ) (hgs : ∀ g ∈ gs, g / 64 < words.length) :
    (gs.foldl setBit words).length = words.length ∧
      ∀ i, bit (gs.foldl setBit words) i = (bit words i || decide (i ∈ gs)) := by
  induction gs generalizing words with
  | nil => simp
  | cons g gs ih =>
    have hlength : (setBit words g).length = words.length := length_modify _ _ _
    obtain ⟨hlen, hbits⟩ := ih (setBit words g) fun g' hg' => by
      rw [hlength]
      exact hgs g' (mem_cons_of_mem _ hg')
    refine ⟨hlen.trans hlength, fun i => ?_⟩
    rw [foldl_cons, hbits, bit_setBit (hgs g mem_cons_self)]
    simp [Bool.or_assoc]

theorem insertRange_spec (hs : Whole memLen s) (offset len : ℕ) :
    Whole memLen (s.insertRange offset len) ∧ ∀ i, bit (s.insertRange offset len).words i = (bit s.words i ||
      decide (offset / GRANULE ≤ i ∧ i ≤ min (offset + (max len 1 - 1)) (2 ^ 64 - 1) / GRANULE ∧ i < s.granules)) := by
  simp only [insertRange]
  generalize min (offset + (max len 1 - 1)) (2 ^ 64 - 1) / GRANULE = last
  generalize offset / GRANULE = first
  have hmem (i : ℕ) : i ∈ (range' first (min last (s.granules - 1) + 1 - first)).takeWhile (· < s.granules) ↔
      first ≤ i ∧ i ≤ last ∧ i < s.granules := by
    rcases Nat.eq_zero_or_pos s.granules with hzero | hpos
    · cases h : range' first (min last (s.granules - 1) + 1 - first) <;> simp [hzero]
    · rw [takeWhile_eq_self_iff.2 (by simp only [mem_range'_1, decide_eq_true_eq]; omega), mem_range'_1]
      omega
  generalize (range' first _).takeWhile _ = gs at hmem
  obtain ⟨hlength, hbits⟩ := bit_foldl_setBit s.words gs fun g hg => by
    rw [hs.words, ← hs.granules]
    have := (hmem g).1 hg
    omega
  simp only [hmem] at hbits
  refine ⟨⟨⟨hs.granules, hlength.trans hs.words⟩, fun i hi => ?_⟩, hbits⟩
  rw [hbits, Bool.or_eq_true, decide_eq_true_eq] at hi
  exact hi.elim (hs.tail i) fun h => h.2.2

theorem Made.whole (h : Made memLen s) : Whole memLen s := by
  induction h with
  | empty =>
    refine ⟨fits_empty memLen, fun i hi => ?_⟩
    simp only [PageSet.empty, bit, getD_eq_getElem?_getD, getElem?_replicate] at hi
    split at hi <;> simp at hi
  | insert _ offset len ih => exact (insertRange_spec ih offset len).1
  | @union s o _ _ ihs iho =>
    refine ⟨ihs.toFits.unionFrom _, fun i hi => ?_⟩
    rw [show (s.unionFrom o).1.words = (unionWords s.words o.words).1 from rfl,
      bit_unionWords (ihs.toFits.length_eq iho.toFits), Bool.or_eq_true] at hi
    rcases hi with hi | hi
    · exact ihs.tail i hi
    · have hlt := iho.tail i hi
      rwa [iho.granules, ← ihs.granules] at hlt

theorem bit_of_ge {i : ℕ} (h : words.length ≤ i / 64) : bit words i = false := by
  rw [bit, getD_eq_default _ _ h]
  exact BitVec.getLsbD_zero

theorem eq_of_bits {ws : List (BitVec 64)} (hlength : words.length = ws.length) (h : ∀ i, bit words i = bit ws i) :
    words = ws := by
  apply ext_getElem hlength
  intro n hn hn'
  apply BitVec.eq_of_getLsbD_eq
  intro k hk
  have hbit := h (64 * n + k)
  rw [bit, bit, show (64 * n + k) / 64 = n by omega, show (64 * n + k) % 64 = k by omega] at hbit
  rwa [getD_eq_getElem _ _ hn, getD_eq_getElem _ _ hn'] at hbit

theorem maskTail_spec (granules : ℕ) (words : List (BitVec 64)) (hwords : words.length = (granules + 63) / 64) :
    (maskTail granules words).length = words.length ∧
      ∀ i, bit (maskTail granules words) i = (bit words i && decide (i < granules)) := by
  rw [maskTail]
  split
  case isTrue hzero =>
    refine ⟨rfl, fun i => ?_⟩
    by_cases hi : i < granules
    · simp [hi]
    · simp [hi, bit_of_ge (show words.length ≤ i / 64 by omega)]
  case isFalse hne =>
    refine ⟨length_modify _ _ _, fun i => ?_⟩
    rw [bit_modify (by omega)]
    split
    case isTrue h =>
      rw [BitVec.getLsbD_and, BitVec.getLsbD_ushiftRight, BitVec.getLsbD_allOnes, ← h, bit]
      congr 2
      rw [eq_iff_iff]
      omega
    case isFalse h =>
      by_cases hi : i < granules
      · simp [hi]
      · simp [hi, bit_of_ge (show words.length ≤ i / 64 by omega)]

theorem take_drop_words (words : List (BitVec 64)) {i : ℕ} (hi : i < words.length) :
    ((words.flatMap fun word => littleEndian 8 word.toNat).drop (i * 8)).take 8 =
      littleEndian 8 (words.getD i 0).toNat := by
  induction words generalizing i with
  | nil => cases hi
  | cons word words ih =>
    have hlength := length_littleEndian 8 word.toNat
    rw [flatMap_cons]
    cases i with
    | zero => rw [Nat.zero_mul, drop_zero, take_left' hlength]; rfl
    | succ i =>
      rw [Nat.succ_mul, Nat.add_comm, ← drop_drop, drop_left' hlength, ih (Nat.lt_of_succ_lt_succ hi)]
      rfl

theorem decode_encode (hs : Whole memLen s) (hlimit : memLen ≤ MAX_MEM_LEN) (key : ImageKey) :
    decode (s.encode key memLen) key memLen = some s := by
  have hmod {x : ℕ} (hx : x < 2 ^ 64) : fromLittleEndian (littleEndian 8 x) = x := fromLittleEndian_littleEndian hx
  have hgranules : s.granules < 2 ^ 64 ∧ memLen < 2 ^ 64 := by
    rw [hs.granules, granulesOf, GRANULE]
    rw [MAX_MEM_LEN] at hlimit
    omega
  have hfield : u64At (s.encode key memLen) 32 = s.granules := hmod hgranules.1
  have hlen : (s.encode key memLen).length = 72 + s.words.length * 8 := by
    have hwords : (s.words.flatMap fun word => littleEndian 8 word.toNat).length = s.words.length * 8 := by
      simp [length_flatMap, length_littleEndian]
    simp only [encode, length_append, length_littleEndian, key.length, hwords]
    simp only [MAGIC, length_cons, length_nil]
    omega
  have hcount : s.words.length = (s.granules + 63) / 64 := by rw [hs.words, hs.granules]
  have hkey : ((s.encode key memLen).drop 40).take 32 = key.bytes := take_left' key.length
  have hread : ((range ((s.granules + 63) / 64)).map fun i =>
      BitVec.ofNat 64 (u64At (s.encode key memLen) (72 + i * 8))) = s.words := by
    apply ext_getElem
    · simp [hcount]
    · intro i hi hi'
      have hdrop : (s.encode key memLen).drop 72 = s.words.flatMap fun word => littleEndian 8 word.toNat := by
        change (key.bytes ++ _).drop 32 = _
        exact drop_left' key.length
      rw [getElem_map, getElem_range, u64At, ← drop_drop, hdrop, take_drop_words _ hi',
        hmod (BitVec.isLt _), BitVec.ofNat_toNat, BitVec.setWidth_eq, getD_eq_getElem _ _ hi']
  obtain ⟨hmasked, hbits⟩ := maskTail_spec _ _ hcount
  have htail : maskTail s.granules s.words = s.words := by
    apply eq_of_bits hmasked
    intro i
    rw [hbits]
    cases hbit : bit s.words i with
    | false => rfl
    | true => simp [hs.tail i hbit]
  have hmagic : (s.encode key memLen).take 8 = MAGIC := rfl
  have hversion : u64At (s.encode key memLen) 8 = VERSION := hmod (by decide)
  have hgranule : u64At (s.encode key memLen) 16 = GRANULE := hmod (by decide)
  have hmem : u64At (s.encode key memLen) 24 = memLen := hmod hgranules.2
  simp [decode, hfield, hlen, hkey, hread, htail, hmagic, hversion, hgranule, hmem, hcount, ← hs.granules, HEADER_LEN]

theorem decode_whole {buf : List UInt8} {key : ImageKey} (h : decode buf key memLen = some s) : Whole memLen s ∧
    buf.take 8 = MAGIC ∧ u64At buf 8 = VERSION ∧ u64At buf 16 = GRANULE ∧ u64At buf 24 = memLen ∧
      (buf.drop 40).take 32 = key.bytes := by
  simp only [decode, ite_eq_iff, ne_eq, reduceCtorEq, and_false, false_or, not_not, Option.some.injEq] at h
  obtain ⟨-, hmagic, hversion, hgranule, hmem, hgranules, hkey, -, rfl⟩ := h
  obtain ⟨hlength, hbits⟩ := maskTail_spec (u64At buf 32) ((range ((u64At buf 32 + 63) / 64)).map fun i =>
    BitVec.ofNat 64 (u64At buf (HEADER_LEN + i * 8))) (by simp)
  refine ⟨⟨⟨hgranules, ?_⟩, fun i hi => ?_⟩, hmagic, hversion, hgranule, hmem, hkey⟩
  · rw [hlength, length_map, length_range, hgranules]
  · rw [hbits, Bool.and_eq_true, decide_eq_true_eq] at hi
    exact hi.2

/-- A set of an image survives its file, and whatever bytes the file has, it is read as a set of this image or not at
all; the runs of either are its maximal runs, and a range sets the granules it touches. -/
theorem recorded_set_survives (hlimit : memLen ≤ MAX_MEM_LEN) (key : ImageKey) :
    (∀ s, Made memLen s → decode (s.encode key memLen) key memLen = some s) ∧
    (∀ buf s, decode buf key memLen = some s → s.granules = granulesOf memLen ∧
      (∀ i, bit s.words i = true → i < s.granules) ∧ buf.take 8 = MAGIC ∧ u64At buf 8 = VERSION ∧
      u64At buf 16 = GRANULE ∧ u64At buf 24 = memLen ∧ (buf.drop 40).take 32 = key.bytes) ∧
    ∀ s, Made memLen s ∨ (∃ buf, decode buf key memLen = some s) →
      (Yields s 0 s.runs ∧ ∃ spans : List (ℕ × ℕ), s.runs = spans.map (fun x => asRun x.1 x.2) ∧
        spans.Pairwise (fun x y => x.2 < y.1) ∧ ∀ a b, (a, b) ∈ spans ↔ IsRun s a b) ∧
      ∀ offset len, 0 < len → ∀ g, (s.insertRange offset len).contains g = true ↔
        s.contains g = true ∨ g < s.granules ∧ offset < (g + 1) * GRANULE ∧ g * GRANULE < offset + len := by
  refine ⟨fun s hs => decode_encode hs.whole hlimit key, fun buf s h => ?_,
    fun s hs => ⟨?_, fun offset len hlen g => ?_⟩⟩
  · obtain ⟨hwhole, hheader⟩ := decode_whole h
    exact ⟨hwhole.granules, hwhole.tail, hheader⟩
  · obtain ⟨spans, heq, hyields, hsorted, hruns, -⟩ := runs_spec s
    exact ⟨hyields, spans, heq, hsorted, hruns⟩
  · have hwhole : Whole memLen s := hs.elim Made.whole fun ⟨buf, h⟩ => (decode_whole h).1
    have hgranules : s.granules ≤ 2 ^ 28 := by
      rw [hwhole.granules, granulesOf, GRANULE]
      rw [MAX_MEM_LEN] at hlimit
      omega
    simp only [contains, Bool.and_eq_true, decide_eq_true_eq, (insertRange_spec hwhole offset len).2, Bool.or_eq_true,
      show (s.insertRange offset len).granules = s.granules from rfl, ← and_or_left]
    apply and_congr_right
    intro hg
    apply or_congr_right
    simp only [GRANULE]
    omega

def zeroKey : ImageKey := ⟨replicate 32 0, rfl⟩

theorem recorded_set_survives_secondPage :
    decode (((empty 8192).insertRange 4096 1).encode zeroKey 8192) zeroKey 8192 =
      some ((empty 8192).insertRange 4096 1) :=
  (recorded_set_survives (by decide) zeroKey).1 _ (.insert .empty 4096 1)

/-- A union with a set of a longer image takes bits past the end of this one, which its file does not keep. -/
theorem union_with_longer_image_is_cut :
    let s := ((empty 4096).unionFrom ((empty 262144).insertRange 81920 1)).1
    decode (s.encode zeroKey 4096) zeroKey 4096 ≠ some s := by
  decide +kernel

end PageSet

end Fcvm.WorkingSet
