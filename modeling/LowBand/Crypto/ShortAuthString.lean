import LowBand.Crypto.NoiseIk
import LowBand.Lib.Reader
import LowBand.Lib.Text
import Mathlib.Data.Fintype.Pi
import Mathlib.Data.List.GetD
import Mathlib.SetTheory.Cardinal.Finite
import Mathlib.Tactic.FinCases

/-!
# The short authentication string

`short_auth_string.rs`: both sides of a handshake show three words, folded from its transcript hash,
and the users read them to each other. What was said is compared without regard to case and to
whitespace around it; the tables of Unicode are a parameter.

The words are distinct and of one length, so a phrase is that of one string only (`display_inj`),
and what was said is accepted by this string alone (`verifyStr_said_iff`). After a handshake both
sides have the same hash (`Handshake.Ideal.transcriptHash_eq`), so they accept each other's phrase
(`sas_handshake`). The fold reads twelve of the 32 bytes; each phrase is that of as many hashes as
any other (`card_derive`), and so is accepted by as many (`card_accepting`).
-/

namespace LowBand.Crypto

open Lib

/-! ## The source -/

/-- `WORD_LIST`. -/
def wordList : List String :=
  ["acid", "acre", "aged", "ajar", "aloe", "alto", "amen", "amok",
    "anew", "apex", "arch", "area", "aria", "army", "aura", "avid",
    "axle", "back", "bale", "ball", "balm", "band", "bank", "barn",
    "base", "bath", "bead", "beam", "bean", "bear", "belt", "bend",
    "bird", "bite", "blue", "bold", "bone", "book", "boom", "boot",
    "born", "bowl", "brew", "brim", "buck", "bulb", "bulk", "bull",
    "bump", "burn", "buzz", "cage", "cake", "calm", "camp", "cape",
    "card", "care", "cart", "cash", "cave", "cell", "cent", "chef",
    "chin", "chip", "chop", "clam", "clay", "clip", "club", "coal",
    "coat", "coil", "cold", "comb", "cone", "cord", "core", "corn",
    "cost", "crab", "crew", "crop", "crow", "cube", "curb", "curl",
    "damp", "dark", "dawn", "daze", "deft", "desk", "dial", "diet",
    "dire", "dish", "disk", "dock", "dome", "door", "dorm", "dove",
    "down", "drag", "drip", "drop", "drum", "dune", "dusk", "dust",
    "earl", "earn", "echo", "edge", "emit", "epic", "exit", "face",
    "fact", "fail", "fair", "fall", "fame", "farm", "fast", "fate",
    "fawn", "feat", "feel", "fern", "fill", "film", "fine", "fire",
    "fish", "fist", "flag", "flaw", "flex", "flip", "flow", "foam",
    "fold", "folk", "fond", "fork", "form", "fort", "fray", "free",
    "fuel", "full", "fume", "fund", "fuse", "gale", "gaze", "gear",
    "glad", "glen", "glow", "glue", "goal", "gold", "golf", "gong",
    "gown", "grab", "grin", "grip", "grit", "gust", "hail", "half",
    "hall", "halt", "harm", "harp", "hash", "haul", "hawk", "haze",
    "heal", "heap", "heat", "heel", "helm", "help", "herb", "hike",
    "hill", "hint", "hold", "hole", "hook", "horn", "hull", "hump",
    "hurl", "idle", "inch", "iris", "isle", "itch", "item", "jade",
    "jail", "jolt", "jury", "keen", "keel", "kelp", "knob", "knot",
    "lake", "lame", "lamp", "land", "lane", "lark", "lava", "lawn",
    "leaf", "lean", "leap", "lens", "lime", "link", "lint", "lion",
    "loft", "loom", "loop", "lord", "lore", "lull", "lump", "lung",
    "lure", "mace", "main", "mane", "mark", "mast", "maze", "mild",
    "mill", "mint", "mist", "moan", "moat", "mode", "mold", "musk"]

/-- The word of a byte. -/
def word (b : UInt8) : String := wordList.getD b.toNat ""

/-- `ShortAuthString`. -/
structure ShortAuthString where
  /-- The bytes that choose the words. -/
  raw : Fin 3 → UInt8
  deriving DecidableEq

/-- The tables of Unicode that `str` reads, with what they say of ASCII. -/
structure UnicodeTables where
  /-- `char::is_whitespace`. -/
  isWhitespace : Char → Bool
  /-- `str::to_lowercase`. -/
  toLowercase : List Char → List Char
  isWhitespace_ascii : ∀ c : Char, c.toNat < 128 →
    (isWhitespace c = true ↔ c.toNat = 32 ∨ 9 ≤ c.toNat ∧ c.toNat ≤ 13)
  toLowercase_ascii : ∀ text : List Char, (∀ c ∈ text, c.toNat < 128) →
    toLowercase text = text.map Char.toLower

/-- The tables of ASCII alone. -/
def asciiTables : UnicodeTables where
  isWhitespace c := c.toNat = 32 || (9 ≤ c.toNat && c.toNat ≤ 13)
  toLowercase text := text.map Char.toLower
  isWhitespace_ascii _ _ := by simp
  toLowercase_ascii _ _ := rfl

/-- `constant_time_eq`. -/
def constantTimeEq (a b : List UInt8) : Bool :=
  a.length = b.length ∧ (List.zipWith (· ^^^ ·) a b).foldl (· ||| ·) 0 = 0

namespace ShortAuthString

/-- `session_material[i] ^ session_material[i + 8] ^ session_material[i + 16] ^
session_material[i + 24]`. -/
def foldAt (sessionMaterial : Bytes 32) (i : ℕ) : UInt8 :=
  sessionMaterial.val.getD i 0 ^^^ sessionMaterial.val.getD (i + 8) 0 ^^^
    sessionMaterial.val.getD (i + 16) 0 ^^^ sessionMaterial.val.getD (i + 24) 0

/-- `derive`. -/
def derive (sessionMaterial : Bytes 32) : ShortAuthString := ⟨fun i => foldAt sessionMaterial i⟩

/-- `words`. -/
def words (sas : ShortAuthString) : Fin 3 → String := fun i => word (sas.raw i)

/-- `Display`: the words with dashes between them. -/
def display (sas : ShortAuthString) : List Char :=
  (sas.words 0).toList ++ '-' :: ((sas.words 1).toList ++ '-' :: (sas.words 2).toList)

/-- `verify_str`. -/
def verifyStr (u : UnicodeTables) (sas : ShortAuthString) (candidate : List Char) : Bool :=
  constantTimeEq (strBytes (.ofList sas.display))
    (strBytes (.ofList (u.toLowercase (trim u.isWhitespace candidate))))

end ShortAuthString

/-! ## The words -/

/-- A word as a number. -/
def wordKey (w : String) : ℕ := w.toList.foldl (fun k c => 256 * k + c.toNat) 0

/-- No word is listed twice. -/
theorem nodup_wordList : wordList.Nodup := by
  have hkeys : (wordList.map wordKey).Nodup := by decide +kernel
  exact hkeys.of_map _

/-- There is a word for each byte. -/
theorem word_eq (b : UInt8) : ∃ h : b.toNat < wordList.length, word b = wordList[b.toNat] := by
  have hlen : wordList.length = 256 := by decide +kernel
  have hlt : b.toNat < wordList.length := hlen ▸ b.toNat_lt
  exact ⟨hlt, List.getD_eq_getElem _ _ hlt⟩

/-- Each byte has its own word. -/
theorem word_inj {b b' : UInt8} (h : word b = word b') : b = b' := by
  obtain ⟨hlt, hword⟩ := word_eq b
  obtain ⟨hlt', hword'⟩ := word_eq b'
  rw [hword, hword'] at h
  exact UInt8.toNat_inj.mp ((nodup_wordList.getElem_inj_iff).mp h)

/-- A word has four letters, all in lower case. -/
theorem word_letters (b : UInt8) :
    (word b).toList.length = 4 ∧ ∀ c ∈ (word b).toList, 97 ≤ c.toNat ∧ c.toNat ≤ 122 := by
  have hall : wordList.all (fun w => w.toList.length = 4 ∧
      w.toList.all fun c => 97 ≤ c.toNat ∧ c.toNat ≤ 122) = true := by decide +kernel
  obtain ⟨hlt, hword⟩ := word_eq b
  have hb := List.all_eq_true.mp hall _ (List.getElem_mem hlt)
  rw [← hword] at hb
  simpa using hb

namespace ShortAuthString

/-- A character of a phrase: a letter in lower case, or the dash. -/
def PhraseChar (c : Char) : Prop := 97 ≤ c.toNat ∧ c.toNat ≤ 122 ∨ c.toNat = 45

/-- A phrase is shown in characters of phrases only. -/
theorem phraseChar_of_mem_display {sas : ShortAuthString} : ∀ c ∈ sas.display, PhraseChar c := by
  have hword : ∀ i, ∀ c ∈ (sas.words i).toList, PhraseChar c := fun i c hc =>
    Or.inl ((word_letters (sas.raw i)).2 c hc)
  have hdash : PhraseChar '-' := Or.inr rfl
  unfold display
  simp only [List.forall_mem_append, List.forall_mem_cons]
  exact ⟨hword 0, hdash, hword 1, hdash, hword 2⟩

/-- Different strings have different phrases. -/
theorem display_inj {sas sas' : ShortAuthString} (h : sas.display = sas'.display) : sas = sas' := by
  have hlen : ∀ i, (sas.words i).toList.length = (sas'.words i).toList.length := fun i =>
    (word_letters (sas.raw i)).1.trans (word_letters (sas'.raw i)).1.symm
  have hraw : ∀ i, (sas.words i).toList = (sas'.words i).toList → sas.raw i = sas'.raw i :=
    fun i hi => word_inj (String.toList_inj.mp hi)
  obtain ⟨h0, hrest⟩ := List.append_inj h (hlen 0)
  obtain ⟨h1, hlast⟩ := List.append_inj (List.cons.inj hrest).2 (hlen 1)
  have h2 : (sas.words 2).toList = (sas'.words 2).toList := (List.cons.inj hlast).2
  have hall : sas.raw = sas'.raw := by
    funext i
    fin_cases i
    · exact hraw 0 h0
    · exact hraw 1 h1
    · exact hraw 2 h2
  cases sas
  cases sas'
  exact congrArg ShortAuthString.mk hall

end ShortAuthString

/-! ## What was said -/

/-- The comparison that does not stop early is equality. -/
theorem constantTimeEq_iff (a b : List UInt8) : constantTimeEq a b = true ↔ a = b := by
  -- Bits stay set while the differences are gathered.
  have hgather : ∀ (xs : List UInt8) (d : UInt8),
      xs.foldl (· ||| ·) d = 0 ↔ d = 0 ∧ ∀ x ∈ xs, x = 0 := by
    intro xs
    induction xs with
    | nil => simp
    | cons x xs ih =>
      intro d
      rw [List.foldl_cons, ih, UInt8.or_eq_zero_iff, List.forall_mem_cons, and_assoc]
  unfold constantTimeEq
  rw [decide_eq_true_iff, hgather]
  induction a generalizing b with
  | nil => cases b <;> simp
  | cons x a ih =>
    cases b with
    | nil => simp
    | cons y b =>
      have hrest := ih b
      simp only [true_and] at hrest
      simp only [List.length_cons, Nat.add_right_cancel_iff, List.zipWith_cons_cons,
        List.forall_mem_cons, UInt8.xor_eq_zero_iff, List.cons.injEq, true_and]
      constructor
      · rintro ⟨hlen, hxy, hzip⟩
        exact ⟨hxy, hrest.mp ⟨hlen, hzip⟩⟩
      · rintro ⟨hxy, hab⟩
        obtain ⟨hlen, hzip⟩ := hrest.mpr hab
        exact ⟨hlen, hxy, hzip⟩

/-- A character whose lower case is in a phrase is ASCII and no whitespace. -/
theorem phraseChar_toLower {c : Char} (h : ShortAuthString.PhraseChar c.toLower) :
    c.toNat < 128 ∧ c.toNat ≠ 32 ∧ 13 < c.toNat := by
  unfold ShortAuthString.PhraseChar Char.toLower at h
  split_ifs at h with hupper
  · have hlow : 65 ≤ c.toNat := UInt32.le_iff_toNat_le.mp hupper.1
    have hhigh : c.toNat ≤ 90 := UInt32.le_iff_toNat_le.mp hupper.2
    omega
  · omega

/-- Whitespace before a text is trimmed off. -/
theorem trim_blanks_append {ws : Char → Bool} {blanks : List Char}
    (hblanks : ∀ c ∈ blanks, ws c = true) (l : List Char) : trim ws (blanks ++ l) = trim ws l := by
  unfold trim
  rw [List.dropWhile_append_of_pos hblanks]

namespace ShortAuthString

/-- What is accepted is exactly the phrase, up to whitespace around it and to case. -/
theorem verifyStr_iff (u : UnicodeTables) (sas : ShortAuthString) (candidate : List Char) :
    sas.verifyStr u candidate = true ↔
      sas.display = u.toLowercase (trim u.isWhitespace candidate) := by
  unfold verifyStr
  rw [constantTimeEq_iff]
  constructor
  · intro h
    have htext := (fromUtf8_eq_some.mpr h).symm.trans (fromUtf8_eq_some.mpr rfl)
    exact String.ofList_injective (Option.some.inj htext).symm
  · intro h
    rw [h]

/-- A phrase that is said in any case, with whitespace around it, is accepted by the strings that
have this phrase, which is one only. -/
theorem verifyStr_said_iff (u : UnicodeTables) (sas sas' : ShortAuthString)
    {before said after : List Char} (hbefore : ∀ c ∈ before, u.isWhitespace c = true)
    (hafter : ∀ c ∈ after, u.isWhitespace c = true) (hsaid : said.map Char.toLower = sas'.display) :
    sas.verifyStr u (before ++ (said ++ after)) = true ↔ sas = sas' := by
  have hchars : ∀ c ∈ said, c.toNat < 128 ∧ c.toNat ≠ 32 ∧ 13 < c.toNat := fun c hc =>
    phraseChar_toLower (phraseChar_of_mem_display _ (hsaid ▸ List.mem_map_of_mem hc))
  have hplain : ∀ c ∈ said, u.isWhitespace c = false := by
    intro c hc
    obtain ⟨hascii, hspace, hcontrol⟩ := hchars c hc
    refine Bool.eq_false_iff.mpr fun hws => ?_
    rcases (u.isWhitespace_ascii c hascii).mp hws with h | h <;> omega
  have hne : said ≠ [] := by
    rintro rfl
    have hlen := congrArg List.length hsaid
    simp [display] at hlen
  rw [verifyStr_iff, trim_blanks_append hbefore, trim_append_blanks hne hplain hafter,
    u.toLowercase_ascii said fun c hc => (hchars c hc).1, hsaid]
  exact ⟨display_inj, fun h => h ▸ rfl⟩

end ShortAuthString

/-! ## The hashes of a phrase -/

/-- There are as many byte strings of a length as there are functions to bytes. -/
theorem card_bytes (n : ℕ) : Nat.card (Bytes n) = 256 ^ n := by
  have hbyte : Nat.card UInt8 = 256 :=
    (Nat.card_congr ⟨UInt8.toFin, UInt8.ofFin, fun _ => rfl, fun _ => rfl⟩).trans (Nat.card_fin 256)
  have hbytes : Bytes n ≃ (Fin n → UInt8) := {
    toFun b i := b.val.get (i.cast b.length_val.symm)
    invFun f := ⟨List.ofFn f, List.length_ofFn⟩
    left_inv b := by
      apply Bytes.ext_val
      obtain ⟨l, rfl⟩ := b
      exact List.ofFn_get l
    right_inv f := by
      funext i
      simp }
  rw [Nat.card_congr hbytes, Nat.card_fun, hbyte, Nat.card_fin]

namespace ShortAuthString

/-- What the bytes after the first three put into the fold. -/
def tailAt (rest : List UInt8) (i : ℕ) : UInt8 :=
  rest.getD (i + 5) 0 ^^^ rest.getD (i + 13) 0 ^^^ rest.getD (i + 21) 0

/-- Each of the first three bytes goes into a fold of its own. -/
theorem foldAt_eq (sessionMaterial : Bytes 32) (i : ℕ) :
    foldAt sessionMaterial i =
      sessionMaterial.val.getD i 0 ^^^ tailAt (sessionMaterial.val.drop 3) i := by
  have hdrop : ∀ j, (sessionMaterial.val.drop 3).getD (i + j) 0 =
      sessionMaterial.val.getD (i + (j + 3)) 0 := by
    intro j
    rw [List.getD_eq_getElem?_getD, List.getD_eq_getElem?_getD, List.getElem?_drop,
      show 3 + (i + j) = i + (j + 3) by omega]
  unfold foldAt tailAt
  rw [hdrop, hdrop, hdrop]
  simp only [UInt8.xor_assoc]

/-- The string of three bytes and the others. -/
theorem derive_append (head : Fin 3 → UInt8) (rest : Bytes 29) :
    derive ⟨List.ofFn head ++ rest.val, by simp⟩ = ⟨fun i => head i ^^^ tailAt rest.val i⟩ := by
  unfold derive
  congr 1
  funext i
  rw [foldAt_eq]
  have hdrop : (List.ofFn head ++ rest.val).drop 3 = rest.val := List.drop_left' List.length_ofFn
  have hget : (List.ofFn head ++ rest.val).getD i 0 = head i := by
    have hlt : (i : ℕ) < (List.ofFn head).length := by simp
    rw [List.getD_append _ _ _ _ hlt, List.getD_eq_getElem _ _ hlt, List.getElem_ofFn]
  rw [hdrop, hget]

/-- Any hash is three bytes and the others. -/
theorem eq_ofFn_append (m : Bytes 32) :
    ∃ (head : Fin 3 → UInt8) (rest : Bytes 29), m = ⟨List.ofFn head ++ rest.val, by simp⟩ := by
  have htake : (m.val.take 3).length = 3 := by simp
  refine ⟨fun i => (m.val.take 3).get (i.cast htake.symm), ⟨m.val.drop 3, by simp⟩, ?_⟩
  apply Bytes.ext_val
  have hhead : List.ofFn (fun i : Fin 3 => (m.val.take 3).get (i.cast htake.symm)) =
      m.val.take 3 := by
    refine List.ext_getElem (by simp) fun i hi hi' => ?_
    rw [List.getElem_ofFn]
    rfl
  show m.val = _ ++ m.val.drop 3
  rw [hhead, List.take_append_drop]

/-- The first three bytes that make a string with the others. -/
def headFor (sas : ShortAuthString) (rest : List UInt8) : Fin 3 → UInt8 :=
  fun i => sas.raw i ^^^ tailAt rest i

/-- Taking the other bytes out of the fold again leaves the first three. -/
theorem derive_eq_iff (sas : ShortAuthString) (head : Fin 3 → UInt8) (rest : Bytes 29) :
    derive ⟨List.ofFn head ++ rest.val, by simp⟩ = sas ↔ head = headFor sas rest.val := by
  rw [derive_append]
  obtain ⟨raw⟩ := sas
  rw [mk.injEq, funext_iff, funext_iff]
  refine forall_congr' fun i => ?_
  show _ = raw i ↔ head i = raw i ^^^ tailAt rest.val i
  constructor
  · intro h
    rw [← h, UInt8.xor_assoc, UInt8.xor_self, UInt8.xor_zero]
  · intro h
    rw [h, UInt8.xor_assoc, UInt8.xor_self, UInt8.xor_zero]

/-- Whatever the other bytes are, the first three can be chosen for each string, in one way. -/
theorem bijective_drop (sas : ShortAuthString) :
    Function.Bijective fun m : {m : Bytes 32 // derive m = sas} =>
      (⟨m.1.val.drop 3, by simp⟩ : Bytes 29) := by
  constructor
  · rintro ⟨m, hm⟩ ⟨m', hm'⟩ hdrop
    obtain ⟨head, rest, rfl⟩ := eq_ofFn_append m
    obtain ⟨head', rest', rfl⟩ := eq_ofFn_append m'
    have hrest : rest = rest' := by
      have hval := congrArg Bytes.val hdrop
      exact Bytes.ext_val ((List.drop_left' List.length_ofFn).symm.trans
        (hval.trans (List.drop_left' List.length_ofFn)))
    subst hrest
    obtain rfl := (derive_eq_iff sas head rest).mp hm
    obtain rfl := (derive_eq_iff sas head' rest).mp hm'
    rfl
  · intro rest
    refine ⟨⟨_, (derive_eq_iff sas (headFor sas rest.val) rest).mpr rfl⟩, ?_⟩
    exact Bytes.ext_val (List.drop_left' List.length_ofFn)

/-- Each phrase is that of as many hashes as any other. -/
theorem card_derive (sas : ShortAuthString) :
    Nat.card {m : Bytes 32 // derive m = sas} = 256 ^ 29 :=
  (Nat.card_eq_of_bijective _ (bijective_drop sas)).trans (card_bytes 29)

end ShortAuthString

/-! ## After a handshake -/

/-- An initiator that completes has the transcript hash of the responder, which completed before. -/
theorem Handshake.Ideal.transcriptHash_eq {S : Suite} {H : Handshake S} (h : H.Ideal)
    {initRes : HandshakeResult} (hi : H.initResult = .ok initRes) :
    ∃ respRes, H.respResult = .ok (respRes, H.delivered2) ∧
      respRes.transcriptHash = initRes.transcriptHash := by
  obtain ⟨r, hr, hdelivered⟩ := h.initResult_ok hi
  -- The responder had the same code, is the target and got the message unchanged.
  obtain ⟨hcode, htarget, hmsg⟩ := h.responder_ok hr
  have hnew := receiveMessage1_new H.initStatic H.respStatic H.initCode H.initE
  -- So its state is the one the initiator was left in.
  have hresp : H.responder = .ok ⟨H.initiator.1.state, pubFromPriv S H.initE,
      H.initStatic.publicKeyBytes⟩ := by
    unfold Handshake.responder Handshake.initiator
    rw [hmsg, ← hcode, Handshake.initiator, htarget]
    exact hnew
  have hr' := Except.ok.inj (hr.symm.trans hresp)
  refine ⟨(r.sendMessage2 S H.respE).1, ?_, ?_⟩
  · unfold Handshake.respResult
    rw [hr, hdelivered]
    rfl
  -- The initiator mixes the same second message into that state.
  · have hinit : H.initiator.1 = ⟨H.initiator.1.state, H.initE, H.target⟩ := by
      unfold Handshake.initiator
      rw [NoiseIkInitiator.new_eq]
    have hsent := receiveMessage2_sendMessage2 H.initStatic H.initiator.1.state H.initE H.respE
      H.target
    unfold Handshake.initResult at hi
    rw [hdelivered, hr', hinit] at hi
    obtain rfl := Except.ok.inj (hi.symm.trans hsent)
    rw [hr']

namespace ShortAuthString

/-- In any handshake over any network, with ideal primitives: once the initiator has completed, the
responder has completed too, and what one user reads out, in any case and with whitespace around it,
the other side accepts. -/
theorem sas_handshake {S : Suite} (H : Handshake S) (h : H.Ideal) {initRes : HandshakeResult}
    (hi : H.initResult = .ok initRes) (u : UnicodeTables) {before said after : List Char}
    (hbefore : ∀ c ∈ before, u.isWhitespace c = true)
    (hafter : ∀ c ∈ after, u.isWhitespace c = true) :
    ∃ respRes, H.respResult = .ok (respRes, H.delivered2) ∧
      (said.map Char.toLower = (derive initRes.transcriptHash).display →
        (derive respRes.transcriptHash).verifyStr u (before ++ (said ++ after)) = true) ∧
      (said.map Char.toLower = (derive respRes.transcriptHash).display →
        (derive initRes.transcriptHash).verifyStr u (before ++ (said ++ after)) = true) := by
  obtain ⟨respRes, hresp, hhash⟩ := h.transcriptHash_eq hi
  refine ⟨respRes, hresp, ?_, ?_⟩
  · exact fun hsaid => (verifyStr_said_iff u _ _ hbefore hafter hsaid).mpr (congrArg _ hhash)
  · exact fun hsaid => (verifyStr_said_iff u _ _ hbefore hafter hsaid).mpr (congrArg _ hhash.symm)

/-- A phrase is in lower case. -/
theorem map_toLower_display (sas : ShortAuthString) :
    sas.display.map Char.toLower = sas.display := by
  have hlower : ∀ c ∈ sas.display, c.toLower = id c := by
    intro c hc
    have hchar : PhraseChar c := phraseChar_of_mem_display c hc
    unfold PhraseChar at hchar
    refine dif_neg fun hupper => ?_
    have hlow : 65 ≤ c.toNat := UInt32.le_iff_toNat_le.mp hupper.1
    have hhigh : c.toNat ≤ 90 := UInt32.le_iff_toNat_le.mp hupper.2
    omega
  rw [List.map_congr_left hlower, List.map_id]

/-- The run of `sampleRun` with its message 2 as it was sent. -/
def honestRun : Handshake sampleSuite :=
  { sampleRun with
    delivered2 := match sampleRun.respResult with
      | .ok (_, msg2) => msg2
      | .error _ => [] }

/-- Its two sides accept each other's phrases. -/
theorem sas_handshake_honest : ∃ initRes respRes, honestRun.initResult = .ok initRes ∧
    honestRun.respResult = .ok (respRes, honestRun.delivered2) ∧
      (derive respRes.transcriptHash).verifyStr asciiTables
        ([' '] ++ ((derive initRes.transcriptHash).display ++ [])) = true := by
  have hideal : honestRun.Ideal := by
    refine ⟨by decide +kernel, by decide +kernel, fun s hs => ?_, by decide +kernel⟩
    have hs' : s = (sampleKeypair 3).publicKeyBytes :=
      Bytes.ext_val (Option.some.inj (hs.symm.trans (by decide +kernel)))
    subst hs'
    decide +kernel
  have hok : honestRun.initResult.isOk = true := by decide +kernel
  cases hi : honestRun.initResult with
  | error e =>
    rw [hi] at hok
    cases hok
  | ok initRes =>
    obtain ⟨respRes, hresp, hfirst, -⟩ := @sas_handshake sampleSuite honestRun hideal initRes hi
      asciiTables [' '] _ [] (List.forall_mem_singleton.mpr rfl) (List.forall_mem_nil _)
    exact ⟨initRes, respRes, rfl, hresp, hfirst (map_toLower_display _)⟩

/-- However a phrase is said, it is accepted for 2^232 of the 2^256 transcript hashes: one of a
handshake that has nothing to do with it has a chance of one in 2^24, for every phrase. -/
theorem card_accepting (u : UnicodeTables) (sas : ShortAuthString) {before said after : List Char}
    (hbefore : ∀ c ∈ before, u.isWhitespace c = true)
    (hafter : ∀ c ∈ after, u.isWhitespace c = true) (hsaid : said.map Char.toLower = sas.display) :
    Nat.card {m : Bytes 32 // (derive m).verifyStr u (before ++ (said ++ after)) = true} =
      2 ^ 232 := by
  have hiff : ∀ m : Bytes 32, (derive m).verifyStr u (before ++ (said ++ after)) = true ↔
      derive m = sas := fun m => verifyStr_said_iff u (derive m) sas hbefore hafter hsaid
  rw [Nat.card_congr (Equiv.subtypeEquivRight hiff), card_derive, show 256 = 2 ^ 8 by rfl,
    ← Nat.pow_mul]

/-- A phrase that is shouted. -/
theorem card_accepting_shouted :
    Nat.card {m : Bytes 32 // (derive m).verifyStr asciiTables
      ([] ++ ("AMOK-acid-Musk".toList ++ ['\n'])) = true} = 2 ^ 232 :=
  card_accepting asciiTables ⟨fun i => if i = 0 then 7 else if i = 1 then 0 else 255⟩
    (List.forall_mem_nil _) (List.forall_mem_singleton.mpr rfl) (by decide +kernel)

end ShortAuthString

end LowBand.Crypto
