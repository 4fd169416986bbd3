import Mathlib.Data.List.Dedup
import Mathlib.Data.List.Induction
import Mathlib.Data.List.Perm.Subperm

/-!
# The compressor of file handles

`compress.c`: messages are bytes, sent as their position in a list that keeps the latest message
in front, and positions are sent in Fibonacci codes, which no other code is the start of.
-/
namespace Cplant.Nexus

def streamEnd : ℕ := 257

def fib : List ℕ := [1, 1, 2, 3, 5, 8, 13, 21, 34, 55, 89, 144, 233]

def streamBits (src : List UInt8) : List Bool :=
  src.flatMap fun c => (List.range 8).map fun i => c.toNat.testBit (7 - i)

def getMessage (bits : List Bool) : Option (UInt8 × List Bool) :=
  if bits.length < 8 then none
  else some ((bits.take 8).foldl (fun value bit => 2 * value + if bit then 1 else 0) 0, bits.drop 8)

/-- What the next bits of a stream are: a position, no whole code, or a code so long that the table
of Fibonacci numbers is read beyond its end. -/
inductive Code
  | position (pos : ℕ) (rest : List Bool)
  | ended
  | wild
  deriving DecidableEq

def getPosition : List Bool → ℕ → ℕ → Bool → Code
  | [], _, _, _ => .ended
  | false :: bits, bpos, pos, _ => getPosition bits (bpos + 1) pos false
  | true :: bits, _, pos, true => .position pos bits
  | true :: bits, bpos, pos, false =>
    match fib[bpos + 1]? with
    | none => .wild
    | some f => getPosition bits (bpos + 1) (pos + f) true

def expand (head : List UInt8) (pos : ℕ) (bits : List Bool) :
    Option (UInt8 × List UInt8 × List Bool) :=
  if head.length < pos then
    if streamEnd ≤ pos then none
    else (getMessage bits).map fun (c, bits) => (c, c :: head, bits)
  else head[pos - 1]?.map fun c => (c, c :: head.eraseIdx (pos - 1), bits)

/-- `dest` is what has been delivered. There is no value where the code runs beyond a table, or
counts a message that it had no room for. -/
def uncompressLoop (destlen : ℕ) :
    ℕ → List Bool → List UInt8 → List UInt8 → Option (List UInt8)
  | 0, _, _, dest => some dest
  | fuel + 1, bits, head, dest =>
    match getPosition bits 0 0 false with
    | .ended => some dest
    | .wild => none
    | .position pos bits =>
      match expand head pos bits with
      | none => some dest
      | some (c, head, bits) =>
        if destlen ≤ dest.length then none
        else uncompressLoop destlen fuel bits head (dest ++ [c])

def imuncompress (src : List UInt8) (destlen : ℕ) : Option (List UInt8) :=
  uncompressLoop destlen (8 * src.length) (streamBits src) [] []

/-- How the loop of `imuncompress` ends: at the end code, with the stream, or at a message that
there is no room for. -/
inductive Exit
  | complete
  | truncated
  | noRoom
  deriving DecidableEq

def Exit.rtn : Exit → Int
  | .complete => 1
  | .truncated => -1
  | .noRoom => 22 -- `EINVAL`

/-- `get_bit` sets the error 0 at the end of the stream, and nothing else sets one. -/
def Exit.cserror : Exit → Int
  | .truncated => 0
  | .complete | .noRoom => 0

def uncompressExit (destlen : ℕ) :
    ℕ → List Bool → List UInt8 → List UInt8 → Option (Exit × List UInt8)
  | 0, _, _, dest => some (.truncated, dest)
  | fuel + 1, bits, head, dest =>
    match getPosition bits 0 0 false with
    | .ended => some (.truncated, dest)
    | .wild => none
    | .position pos bits =>
      match expand head pos bits with
      | none => some (if streamEnd ≤ pos then .complete else .truncated, dest)
      | some (c, head, bits) =>
        if destlen ≤ dest.length then some (.noRoom, dest)
        else uncompressExit destlen fuel bits head (dest ++ [c])

def uncompressed (src : List UInt8) (destlen : ℕ) : Option (Int × ℕ × List UInt8) :=
  (uncompressExit destlen (8 * src.length) (streamBits src) [] []).map fun (e, dest) =>
    (if e.rtn = 0 then 0 else e.cserror, if e = .noRoom then dest.length + 1 else dest.length, dest)

def codes : List ℕ :=
  [1, 2, 4, 5, 8, 9, 10, 16, 17, 18, 20, 21, 32, 33, 34, 36, 37, 40, 41, 42, 64, 65, 66, 68, 69, 72,
  73, 74, 80, 81, 82, 84, 85, 128, 129, 130, 132, 133, 136, 137, 138, 144, 145, 146, 148, 149, 160,
  161, 162, 164, 165, 168, 169, 170, 256, 257, 258, 260, 261, 264, 265, 266, 272, 273, 274, 276,
  277, 288, 289, 290, 292, 293, 296, 297, 298, 320, 321, 322, 324, 325, 328, 329, 330, 336, 337,
  338, 340, 341, 512, 513, 514, 516, 517, 520, 521, 522, 528, 529, 530, 532, 533, 544, 545, 546,
  548, 549, 552, 553, 554, 576, 577, 578, 580, 581, 584, 585, 586, 592, 593, 594, 596, 597, 640,
  641, 642, 644, 645, 648, 649, 650, 656, 657, 658, 660, 661, 672, 673, 674, 676, 677, 680, 681,
  682, 1024, 1025, 1026, 1028, 1029, 1032, 1033, 1034, 1040, 1041, 1042, 1044, 1045, 1056, 1057,
  1058, 1060, 1061, 1064, 1065, 1066, 1088, 1089, 1090, 1092, 1093, 1096, 1097, 1098, 1104, 1105,
  1106, 1108, 1109, 1152, 1153, 1154, 1156, 1157, 1160, 1161, 1162, 1168, 1169, 1170, 1172, 1173,
  1184, 1185, 1186, 1188, 1189, 1192, 1193, 1194, 1280, 1281, 1282, 1284, 1285, 1288, 1289, 1290,
  1296, 1297, 1298, 1300, 1301, 1312, 1313, 1314, 1316, 1317, 1320, 1321, 1322, 1344, 1345, 1346,
  1348, 1349, 1352, 1353, 1354, 1360, 1361, 1362, 1364, 1365, 2048, 2049, 2050, 2052, 2053, 2056,
  2057, 2058, 2064, 2065, 2066, 2068, 2069, 2080, 2081, 2082, 2084, 2085, 2088, 2089, 2090, 2112,
  2113, 2114, 2116]

def emitCode : ℕ → ℕ → List Bool
  | 0, _ => []
  | n + 1, code => (code % 2 == 1) :: if code / 2 = 0 then [true] else emitCode n (code / 2)

def emitPosition (pos : ℕ) : List Bool := codes[pos]?.elim [] (emitCode 32)

def charValue (c : UInt8) : Int := if c.toNat < 128 then c.toNat else c.toNat - 256

/-- A turn of the loop: what is emitted, and the list, whose messages have no sign. There is no
value where the assertion fails. -/
def compressStep (head : List UInt8) (c : UInt8) : Option (List Bool × List UInt8) :=
  let pos := head.findIdx fun e => (e.toNat : Int) = charValue c
  match head[pos]? with
  | some e => some (emitPosition pos, e :: head.eraseIdx pos)
  | none =>
    if head.length < 256 then some (emitPosition pos ++ streamBits [c], c :: head) else none

def compressLoop : List UInt8 → List UInt8 → Option (List Bool)
  | [], _ => some (emitPosition (streamEnd - 1))
  | c :: src, head => (compressStep head c).bind fun (bits, head) =>
    (compressLoop src head).map (bits ++ ·)

def byteOf (bits : List Bool) : UInt8 :=
  bits.foldl (fun value bit => 2 * value + if bit then 1 else 0) 0

def pack : ℕ → List Bool → List UInt8
  | 0, _ => []
  | n + 1, bits => byteOf (bits.take 8) :: pack n (bits.drop 8)

def imcompress (src : List UInt8) (destlen : ℕ) : Option (List UInt8) :=
  (compressLoop src []).bind fun bits =>
    let n := (bits.length + 7) / 8
    if n ≤ destlen then some (pack n (bits ++ List.replicate (8 * n - bits.length) false))
    else none

/-- The messages that a code sequence stands for, up to its end code. -/
inductive Decodes : List Bool → List UInt8 → List UInt8 → Prop
  | ended {bits rest head pos} (h : getPosition bits 0 0 false = .position pos rest)
      (hpos : streamEnd ≤ pos) (hnew : head.length < pos) : Decodes bits head []
  | message {bits rest rest' head head' out pos c}
      (h : getPosition bits 0 0 false = .position pos rest)
      (hc : expand head pos rest = some (c, head', rest')) (hout : Decodes rest' head' out) :
      Decodes bits head (c :: out)

open List Option Nat Prod
variable {bits rest : List Bool} {bpos pos p fuel destlen n : ℕ} {obit : Bool} {c : UInt8}
  {src head head' dest out : List UInt8}

theorem getPosition_append (h : getPosition bits bpos pos obit = .position p rest)
    (more : List Bool) : rest.length < bits.length ∧
      getPosition (bits ++ more) bpos pos obit = .position p (rest ++ more) := by
  induction bits generalizing bpos pos obit with
  | nil => cases h
  | cons b bits ih =>
    rw [length_cons, cons_append]
    cases b with
    | false => exact (ih h).imp_left lt_succ_of_lt
    | true =>
      cases obit with
      | true =>
        cases h
        exact ⟨lt_succ_self _, rfl⟩
      | false =>
        rw [getPosition] at h ⊢
        split at h
        · cases h
        · exact (ih h).imp_left lt_succ_of_lt

theorem length_expand (h : expand head pos bits = some (c, head', rest)) :
    rest.length ≤ bits.length := by
  unfold expand getMessage at h
  grind

theorem Decodes.exit (h : Decodes bits head out) (hfuel : bits.length ≤ fuel)
    (hdest : dest.length + out.length ≤ destlen) :
    uncompressExit destlen fuel bits head dest = some (.complete, dest ++ out) := by
  induction h generalizing fuel dest with
  | ended h hpos hnew =>
    have hlen := (getPosition_append h []).1
    obtain ⟨fuel, rfl⟩ : ∃ f, fuel = f + 1 := ⟨fuel - 1, by omega⟩
    simp [uncompressExit, h, expand, hpos, hnew]
  | message h hc _ ih =>
    have hlen := (getPosition_append h []).1
    have hlen' := length_expand hc
    obtain ⟨fuel, rfl⟩ : ∃ f, fuel = f + 1 := ⟨fuel - 1, by omega⟩
    rw [length_cons] at hdest
    rw [uncompressExit, h]
    simp only [hc, if_neg (show ¬destlen ≤ dest.length by omega)]
    rw [ih (by omega) (by simp; omega), append_assoc]
    rfl

theorem length_streamBits (src : List UInt8) : (streamBits src).length ≤ 8 * src.length := by
  simp [streamBits, Nat.mul_comm]

/-- Bad streams are rejected, and the length is that of what was written, exactly if the stream
holds a complete code sequence that there is room for. -/
theorem uncompressed_iff (src : List UInt8) (destlen : ℕ) :
    (∃ rc n dest, uncompressed src destlen = some (rc, n, dest) ∧ (rc = 0 → n = dest.length ∧
      ∃ out, Decodes (streamBits src) [] out ∧ out.length ≤ destlen)) ↔
        ∃ out, Decodes (streamBits src) [] out ∧ out.length ≤ destlen := by
  constructor
  · rintro ⟨rc, n, dest, hret, h⟩
    obtain ⟨⟨e, _⟩, -, he⟩ := map_eq_some_iff.mp hret
    cases he
    exact (h (by cases e <;> rfl)).2
  · rintro ⟨out, hout, hlen⟩
    rw [uncompressed, hout.exit (length_streamBits src) (by simpa using hlen)]
    exact ⟨_, _, _, rfl, fun _ => ⟨rfl, out, hout, hlen⟩⟩

theorem uncompressed_nil :
    uncompressed [] 249 = some (0, 0, []) ∧ ¬∃ out, Decodes (streamBits []) [] out := by
  refine ⟨rfl, ?_⟩
  rintro ⟨out, h | h⟩ <;> cases h

theorem uncompressLoop_eq : uncompressLoop destlen fuel bits head dest =
    (uncompressExit destlen fuel bits head dest).bind fun (e, dest) =>
      if e = .noRoom then none else some dest := by
  induction fuel generalizing bits head dest with
  | zero => rfl
  | succ fuel ih =>
    rw [uncompressLoop, uncompressExit]
    split
    · rfl
    · rfl
    split
    · split_ifs <;> rfl
    · split_ifs
      · rfl
      · exact ih

theorem getPosition_emitPosition (hpos : pos < streamEnd) :
    getPosition (emitPosition pos ++ rest) 0 0 false = .position (pos + 1) rest := by
  have hall : ∀ pos < streamEnd, getPosition (emitPosition pos) 0 0 false =
      .position (pos + 1) [] := by decide +kernel
  exact (getPosition_append (hall pos hpos) rest).2

theorem getMessage_streamBits (c : UInt8) :
    getMessage (streamBits [c] ++ rest) = some (c, rest) := by
  have hall : ∀ n < 256, byteOf (streamBits [UInt8.ofNat n]) = UInt8.ofNat n := by decide +kernel
  have hc := hall c.toNat c.toNat_lt
  rw [UInt8.ofNat_toNat, byteOf] at hc
  have hlen : (streamBits [c]).length = 8 := by simp [streamBits]
  simp [getMessage, hlen, hc]

theorem streamBits_byteOf (h : bits.length = 8) : streamBits [byteOf bits] = bits := by
  have hall : ∀ a b c d e f g h : Bool,
      streamBits [byteOf [a, b, c, d, e, f, g, h]] = [a, b, c, d, e, f, g, h] := by decide +kernel
  match bits, h with
  | [a, b, c, d, e, f, g, h], _ => exact hall a b c d e f g h

theorem streamBits_append (a b : List UInt8) : streamBits (a ++ b) = streamBits a ++ streamBits b :=
  flatMap_append

theorem streamBits_pack (h : bits.length = 8 * n) : streamBits (pack n bits) = bits := by
  induction n generalizing bits with
  | zero =>
    rw [eq_nil_of_length_eq_zero h]
    rfl
  | succ n ih =>
    rw [pack, ← singleton_append, streamBits_append, streamBits_byteOf (by simp; omega),
      ih (by simp [h]; omega), take_append_drop]

theorem charValue_eq_iff {e : UInt8} : (e.toNat : Int) = charValue c ↔ c.toNat < 128 ∧ e = c := by
  have := c.toNat_lt
  rw [charValue, ← UInt8.toNat_inj]
  split <;> omega

theorem compressStep_eq (head : List UInt8) (c : UInt8) : compressStep head c =
    if c.toNat < 128 ∧ c ∈ head then some (emitPosition (head.idxOf c), c :: head.erase c)
    else if head.length < 256 then some (emitPosition head.length ++ streamBits [c], c :: head)
    else none := by
  simp only [compressStep, charValue_eq_iff]
  by_cases hfound : c.toNat < 128 ∧ c ∈ head
  · have hidx : (head.findIdx fun e => c.toNat < 128 ∧ e = c) = head.idxOf c := by
      simp only [hfound.1, true_and]
      rfl
    rw [if_pos hfound, hidx, getElem?_idxOf hfound.2, eraseIdx_idxOf_eq_erase]
  · have hidx : (head.findIdx fun e => c.toNat < 128 ∧ e = c) = head.length :=
      findIdx_eq_length_of_false fun e he => by grind
    rw [if_neg hfound, hidx, getElem?_length]

theorem expand_compressStep (h : compressStep head c = some (bits, head'))
    (hhead : head.length ≤ 256) :
    head'.length ≤ 256 ∧ ∃ pos < streamEnd, ∃ message, bits = emitPosition pos ++ message ∧
      ∀ rest, expand head (pos + 1) (message ++ rest) = some (c, head', rest) := by
  rw [compressStep_eq] at h
  split_ifs at h with hfound hnew
  · cases h
    have hidx := idxOf_lt_length_of_mem hfound.2
    refine ⟨by grind, _, by grind [streamEnd], [], (append_nil _).symm, fun rest => ?_⟩
    rw [expand, if_neg (Nat.not_lt.mpr hidx), Nat.add_sub_cancel, getElem?_idxOf hfound.2,
      eraseIdx_idxOf_eq_erase]
    rfl
  · cases h
    refine ⟨hnew, _, by grind [streamEnd], _, rfl, fun rest => ?_⟩
    rw [expand, if_pos (lt_succ_self _), if_neg (by grind [streamEnd]), getMessage_streamBits]
    rfl

theorem decodes_compressLoop (h : compressLoop src head = some bits) (hhead : head.length ≤ 256) :
    Decodes (bits ++ rest) head src := by
  induction src generalizing head bits with
  | nil =>
    cases h
    exact .ended (getPosition_emitPosition (by decide)) (by decide) (lt_succ_of_le hhead)
  | cons c src ih =>
    obtain ⟨⟨sent, head'⟩, hstep, hloop⟩ := bind_eq_some_iff.mp h
    obtain ⟨bits, hsrc, rfl⟩ := map_eq_some_iff.mp hloop
    obtain ⟨hhead', pos, hpos, message, rfl, hexpand⟩ := expand_compressStep hstep hhead
    rw [append_assoc, append_assoc]
    exact .message (getPosition_emitPosition hpos) (hexpand _) (ih hsrc hhead')

theorem imuncompress_imcompress {cap : ℕ} (hout : imcompress src cap = some out)
    (hlen : src.length ≤ destlen) (more : List UInt8) :
    imuncompress (out ++ more) destlen = some src := by
  obtain ⟨bits, hbits, hpack⟩ := bind_eq_some_iff.mp hout
  obtain ⟨_, hpack⟩ := ite_none_right_eq_some.mp hpack
  have hdecodes : Decodes (streamBits (out ++ more)) [] src := by
    rw [← some.inj hpack, streamBits_append, streamBits_pack (by simp; omega), append_assoc]
    exact decodes_compressLoop hbits (by simp)
  rw [imuncompress, uncompressLoop_eq,
    hdecodes.exit (length_streamBits _) (by simpa using hlen)]
  rfl

theorem imuncompress_imcompress_signed :
    imuncompress ((imcompress [97, 200, 97, 200] 16).getD [] ++ [255]) 4 =
      some [97, 200, 97, 200] :=
  imuncompress_imcompress (show imcompress [97, 200, 97, 200] 16 = some _ by rfl) (by decide) _

def listAfter (src : List UInt8) : Option (List UInt8) :=
  src.foldlM (fun head c => (compressStep head c).map snd) []

theorem listAfter_concat (src : List UInt8) (c : UInt8) :
    listAfter (src ++ [c]) = ((listAfter src).bind (compressStep · c)).map snd := by
  rw [listAfter, foldlM_append, map_bind]
  exact congrArg (Option.bind _) (funext fun _ => bind_fun_some _)

theorem dedup_concat (src : List UInt8) (c : UInt8) :
    (src ++ [c]).dedup = src.dedup.erase c ++ [c] := by
  induction src with
  | nil => rfl
  | cons a src ih =>
    by_cases ha : a ∈ src
    · rw [cons_append, dedup_cons_of_mem (by simp [ha]), ih, dedup_cons_of_mem ha]
    · rw [dedup_cons_of_notMem ha, cons_append]
      rcases eq_or_ne a c with rfl | hac
      · simp [dedup_cons_of_mem, ih, ha]
      · simp [dedup_cons_of_notMem, ha, hac, ih]

theorem reverse_dedup_concat (src : List UInt8) (c : UInt8) :
    (src ++ [c]).dedup.reverse = c :: src.dedup.reverse.erase c := by
  rw [dedup_concat, reverse_append, (nodup_dedup _).erase_eq_filter,
    (nodup_reverse.mpr (nodup_dedup _)).erase_eq_filter, filter_reverse]
  rfl

theorem length_lt_of_nodup (h : (c :: head).Nodup) : head.length < 256 := by
  have hmap : ((c :: head).map UInt8.toNat).Nodup := h.map fun _ _ => UInt8.toNat_inj.mp
  have hsub : (c :: head).map UInt8.toNat ⊆ range 256 := fun n hn => by
    obtain ⟨d, -, rfl⟩ := mem_map.mp hn
    exact mem_range.mpr d.toNat_lt
  simpa [Nat.lt_succ_iff] using (subperm_of_subset hmap hsub).length_le

theorem compressStep_dedup (h : c ∈ src → c.toNat < 128) :
    ∃ bits, compressStep src.dedup.reverse c = some (bits, (src ++ [c]).dedup.reverse) ∧
      (c ∈ src → ∃ pos, bits = emitPosition pos) := by
  have hnodup : (src ++ [c]).dedup.reverse.Nodup := nodup_reverse.mpr (nodup_dedup _)
  rw [reverse_dedup_concat] at hnodup
  rw [compressStep_eq, reverse_dedup_concat]
  by_cases hc : c ∈ src
  · rw [if_pos ⟨h hc, by simpa using hc⟩]
    exact ⟨_, rfl, fun _ => ⟨_, rfl⟩⟩
  · rw [erase_of_not_mem (by simpa using hc)] at hnodup ⊢
    rw [if_neg (by simp [hc]), if_pos (length_lt_of_nodup hnodup)]
    exact ⟨_, rfl, fun hmem => absurd hmem hc⟩

theorem listAfter_dedup (h : ∀ p c, p ++ [c] <+: src → c ∈ p → c.toNat < 128) :
    listAfter src = some src.dedup.reverse := by
  induction src using reverseRecOn with
  | nil => rfl
  | append_singleton src c ih =>
    obtain ⟨bits, hstep, -⟩ := compressStep_dedup (h src c (prefix_refl _))
    rw [listAfter_concat, ih fun p d hp => h p d (hp.trans (prefix_append _ _)),
      bind_some, hstep]
    rfl

/-- The list holds each byte once, the latest in front, and a repeated byte is sent as a position,
exactly for the strings that repeat no byte with its sign bit set. -/
theorem compressStep_lists_once (src : List UInt8) :
    (∀ p c, p ++ [c] <+: src → ∃ bits,
      (listAfter p).bind (compressStep · c) = some (bits, (p ++ [c]).dedup.reverse) ∧
        (c ∈ p → ∃ pos, bits = emitPosition pos)) ↔
      ∀ p c, p ++ [c] <+: src → c ∈ p → c.toNat < 128 := by
  constructor
  · intro h p c hp hc
    obtain ⟨q, d, rfl⟩ := (eq_nil_or_concat' p).resolve_left (ne_nil_of_mem hc)
    obtain ⟨_, hlist, -⟩ := h q d ((prefix_append _ _).trans hp)
    obtain ⟨bits, hstep, -⟩ := h _ c hp
    rw [listAfter_concat, hlist, map_some, bind_some, compressStep_eq] at hstep
    split_ifs at hstep with hfound
    · exact hfound.1
    · -- the new list would hold the message twice
      have hnodup := nodup_reverse.mpr (nodup_dedup (q ++ [d] ++ [c]))
      rw [← (mk.inj (some.inj hstep)).2] at hnodup
      exact absurd (by simpa using hc) (nodup_cons.mp hnodup).1
  · intro h p c hp
    rw [listAfter_dedup fun q d hq =>
      h q d (hq.trans ((prefix_append _ _).trans hp)), bind_some]
    exact compressStep_dedup (h p c hp)

theorem compressStep_lists_twice :
    (listAfter [128]).bind (compressStep · 128) =
      some (emitPosition 1 ++ streamBits [128], [128, 128]) := by
  rfl

end Cplant.Nexus
