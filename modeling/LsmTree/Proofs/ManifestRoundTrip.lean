import LsmTree.Manifest

/-!
# The bytes that record a manifest

Every reader of the payload takes exactly one spelling of each value off the front of the bytes and
leaves the rest alone. That is one equivalence for each reader, so what is written reads back and what
is read was written so:

* **`Decoder.word_eq_ok`**, **`Decoder.optional_eq_ok`**, **`Decoder.many_eq_ok`** — numbers, values that
  may be missing, and counted lists;
* **`SegmentMeta.decoder_eq_ok`**, **`Manifest.decoder_eq_ok`** — the record of a segment, the payload;
* **`Manifest.decode_eq_ok`** — a payload is read behind the header that describes it, and nothing else
  is read at all;
* **`Manifest.decodes_exactly`** — so a file is read as a manifest if and only if it records it.
-/

namespace LsmTree

namespace Decoder

variable {α β : Type}

theorem bind_eq_ok {decoder : Decoder α} {next : α → Decoder β} {bytes rest : Bytes} {result : β} :
    (decoder >>= next) bytes = .ok (result, rest) ↔
      ∃ value middle, decoder bytes = .ok (value, middle) ∧ next value middle = .ok (result, rest) := by
  change (decoder bytes >>= fun step => next step.1 step.2) = _ ↔ _
  cases decoder bytes with
  | error fault =>
    constructor
    · intro h
      cases h
    · rintro ⟨value, middle, h, -⟩
      cases h
  | ok step =>
    constructor
    · intro h
      exact ⟨step.1, step.2, rfl, h⟩
    · rintro ⟨value, middle, h, hnext⟩
      cases h
      exact hnext

theorem pure_eq_ok {value result : α} {bytes rest : Bytes} :
    (pure value : Decoder α) bytes = .ok (result, rest) ↔ value = result ∧ bytes = rest := by
  change Except.ok (value, bytes) = _ ↔ _
  simp

/-- A number is read if it was written, octet by octet, in its width. -/
theorem word_eq_ok {width n : Nat} {bytes rest : Bytes} :
    word width bytes = .ok (n, rest) ↔
      n < Bytes.capacity width ∧ bytes = Bytes.word width n ++ rest := by
  constructor
  · intro h
    rw [word] at h
    split at h
    · next front back hsplit =>
      cases h
      have ⟨hbytes, hwidth⟩ := Bytes.split?_eq_some.1 hsplit
      subst hwidth
      rw [Bytes.word_ofWord]
      exact ⟨Bytes.ofWord_lt front, hbytes⟩
    · cases h
  · rintro ⟨hn, rfl⟩
    have hsplit : Bytes.split? width (Bytes.word width n ++ rest) =
        some (Bytes.word width n, rest) :=
      Bytes.split?_eq_some.2 ⟨rfl, Bytes.length_word width n⟩
    rw [word, hsplit]
    simp only [Bytes.ofWord_word, Nat.mod_eq_of_lt hn]

/-- The same for a field of 64 bits, as the value it holds. -/
theorem word_bind_eq_ok {next : Nat → Decoder β} {bytes rest : Bytes} {result : β} :
    (word 8 >>= next) bytes = .ok (result, rest) ↔ ∃ (value : UInt64) (middle : Bytes),
      bytes = Bytes.word 8 value.toNat ++ middle ∧ next value.toNat middle = .ok (result, rest) := by
  rw [bind_eq_ok]
  constructor
  · rintro ⟨n, middle, hread, hnext⟩
    have ⟨hn, hbytes⟩ := word_eq_ok.1 hread
    have hvalue : (UInt64.ofNat n).toNat = n := UInt64.toNat_ofNat_of_lt' hn
    exact ⟨.ofNat n, middle, by rw [hvalue, hbytes], by rw [hvalue, hnext]⟩
  · rintro ⟨value, middle, hbytes, hnext⟩
    exact ⟨value.toNat, middle, word_eq_ok.2 ⟨value.toNat_lt, hbytes⟩, hnext⟩

/-- An optional value: the tag says which of the two spellings follows, and there is no third tag. -/
theorem optional_eq_ok {one : Decoder α} {value : Option α} {bytes rest : Bytes} :
    optional one bytes = .ok (value, rest) ↔ (value = none ∧ bytes = 0 :: rest) ∨
      ∃ found middle, value = some found ∧ bytes = 1 :: middle ∧ one middle = .ok (found, rest) := by
  have htag : ∀ (tag : Nat) (middle : Bytes), word 1 bytes = .ok (tag, middle) ↔
      tag < 256 ∧ bytes = UInt8.ofNat tag :: middle := by
    intro tag middle
    rw [word_eq_ok]
    rfl
  rw [optional, bind_eq_ok]
  constructor
  · rintro ⟨tag, middle, hread, hnext⟩
    have ⟨_, hbytes⟩ := (htag tag middle).1 hread
    match tag with
    | 0 =>
      have ⟨hvalue, hrest⟩ := pure_eq_ok.1 hnext
      exact .inl ⟨hvalue.symm, by rw [hbytes, hrest]; rfl⟩
    | 1 =>
      have ⟨found, after, hone, hlast⟩ := bind_eq_ok.1 hnext
      have ⟨hvalue, hrest⟩ := pure_eq_ok.1 hlast
      subst hvalue hrest
      exact .inr ⟨found, middle, rfl, hbytes, hone⟩
    | tag + 2 => cases hnext
  · rintro (⟨rfl, hbytes⟩ | ⟨found, middle, rfl, hbytes, hone⟩)
    · exact ⟨0, rest, (htag 0 rest).2 ⟨by omega, hbytes⟩, rfl⟩
    · refine ⟨1, middle, (htag 1 middle).2 ⟨by omega, hbytes⟩, ?_⟩
      exact bind_eq_ok.2 ⟨found, rest, hone, rfl⟩

/-- A counted list: as many values as the count says, one spelling after the other. -/
theorem many_eq_ok {one : Decoder α} {spelling : α → Bytes}
    (hone : ∀ {value : α} {bytes rest : Bytes},
      one bytes = .ok (value, rest) ↔ bytes = spelling value ++ rest)
    {count : Nat} {values : List α} {bytes rest : Bytes} :
    many one count bytes = .ok (values, rest) ↔
      values.length = count ∧ bytes = values.flatMap spelling ++ rest := by
  induction count generalizing values bytes with
  | zero =>
    rw [many, pure_eq_ok]
    constructor
    · rintro ⟨rfl, rfl⟩
      exact ⟨rfl, rfl⟩
    · rintro ⟨hlength, hbytes⟩
      have hnil : values = [] := List.length_eq_zero_iff.1 hlength
      subst hnil
      exact ⟨rfl, hbytes⟩
  | succ count ih =>
    rw [many, bind_eq_ok]
    constructor
    · rintro ⟨head, middle, hhead, hnext⟩
      have ⟨tail, after, htail, hlast⟩ := bind_eq_ok.1 hnext
      have ⟨hvalues, hrest⟩ := pure_eq_ok.1 hlast
      subst hvalues hrest
      have ⟨hlength, hmiddle⟩ := ih.1 htail
      rw [hone.1 hhead, hmiddle, List.flatMap_cons, List.append_assoc]
      exact ⟨by simp [hlength], rfl⟩
    · rintro ⟨hlength, hbytes⟩
      match values with
      | [] => simp at hlength
      | head :: tail =>
        have hcount : tail.length = count := by simpa using hlength
        rw [List.flatMap_cons, List.append_assoc] at hbytes
        exact ⟨head, _, hone.2 hbytes, bind_eq_ok.2 ⟨tail, rest, ih.2 ⟨hcount, rfl⟩, rfl⟩⟩

end Decoder

namespace SegmentMeta

theorem optional_word_eq_ok {crc : Option Nat} {bytes rest : Bytes} :
    Decoder.optional (Decoder.word 4) bytes = .ok (crc, rest) ↔
      ∃ value : Option UInt32, crc = value.map UInt32.toNat ∧ bytes = encodeCrc value ++ rest := by
  rw [Decoder.optional_eq_ok]
  constructor
  · rintro (⟨rfl, hbytes⟩ | ⟨found, middle, rfl, hbytes, hread⟩)
    · exact ⟨none, rfl, hbytes⟩
    · have ⟨hfound, hmiddle⟩ := Decoder.word_eq_ok.1 hread
      have hvalue : (UInt32.ofNat found).toNat = found := UInt32.toNat_ofNat_of_lt' hfound
      refine ⟨some (.ofNat found), by simp [hvalue], ?_⟩
      rw [hbytes, hmiddle, encodeCrc, hvalue]
      rfl
  · rintro ⟨value, rfl, hbytes⟩
    cases value with
    | none => exact .inl ⟨rfl, hbytes⟩
    | some crc =>
      exact .inr ⟨crc.toNat, Bytes.word 4 crc.toNat ++ rest, rfl, hbytes,
        Decoder.word_eq_ok.2 ⟨crc.toNat_lt, rfl⟩⟩

/-- **The record of a segment** is read if and only if it was written, whatever follows it. -/
theorem decoder_eq_ok {segment : SegmentMeta} {bytes rest : Bytes} :
    decoder bytes = .ok (segment, rest) ↔ bytes = segment.encode ++ rest := by
  constructor
  · intro h
    rw [decoder] at h
    obtain ⟨generation, afterGeneration, rfl, hcounts⟩ := Decoder.word_bind_eq_ok.1 h
    obtain ⟨entryCount, afterCount, rfl, hdata⟩ := Decoder.word_bind_eq_ok.1 hcounts
    obtain ⟨dataLen, afterData, rfl, hindex⟩ := Decoder.word_bind_eq_ok.1 hdata
    obtain ⟨indexLen, afterIndex, rfl, hcrcs⟩ := Decoder.word_bind_eq_ok.1 hindex
    obtain ⟨crc, afterCrc, hcrc, hlast⟩ := Decoder.bind_eq_ok.1 hcrcs
    obtain ⟨dataCrc, rfl, rfl⟩ := optional_word_eq_ok.1 hcrc
    obtain ⟨hsegment, rfl⟩ := Decoder.pure_eq_ok.1 hlast
    subst hsegment
    cases dataCrc <;> simp [encode]
  · rintro rfl
    simp only [encode, List.append_assoc]
    apply Decoder.word_bind_eq_ok.2 ⟨_, _, rfl, _⟩
    apply Decoder.word_bind_eq_ok.2 ⟨_, _, rfl, _⟩
    apply Decoder.word_bind_eq_ok.2 ⟨_, _, rfl, _⟩
    apply Decoder.word_bind_eq_ok.2 ⟨_, _, rfl, _⟩
    apply Decoder.bind_eq_ok.2 ⟨_, _, optional_word_eq_ok.2 ⟨_, rfl, rfl⟩, _⟩
    apply Decoder.pure_eq_ok.2 ⟨_, rfl⟩
    cases segment with
    | mk generation entryCount dataLen indexLen dataCrc => cases dataCrc <;> simp

theorem length_encode_pos (segment : SegmentMeta) : 0 < segment.encode.length := by
  have hgeneration := Bytes.length_word 8 segment.generation.toNat
  simp only [encode, List.length_append]
  omega

end SegmentMeta

namespace Manifest

theorem length_le_flatMap (segments : List SegmentMeta) :
    segments.length ≤ (segments.flatMap SegmentMeta.encode).length := by
  induction segments with
  | nil => simp
  | cons segment more ih =>
    have := segment.length_encode_pos
    rw [List.flatMap_cons, List.length_append, List.length_cons]
    omega

/-- A list whose records fit a payload has a count that fits its field. -/
theorem length_segments_lt {manifest : Manifest} {rest : Bytes}
    (h : (manifest.payload ++ rest).length < UInt32.size) :
    manifest.segments.length < Bytes.capacity 8 := by
  have hle := length_le_flatMap manifest.segments
  have hpayload : (manifest.segments.flatMap SegmentMeta.encode).length ≤
      (manifest.payload ++ rest).length := by
    simp only [payload, List.length_append]
    omega
  have : Bytes.capacity 8 = 2 ^ 64 := by decide
  have : UInt32.size = 2 ^ 32 := by decide
  omega

/-- **A payload** is read if and only if it was written, whatever follows it. -/
theorem decoder_eq_ok {manifest : Manifest} {bytes rest : Bytes} :
    decoder bytes = .ok (manifest, rest) ↔
      manifest.segments.length < Bytes.capacity 8 ∧ bytes = manifest.payload ++ rest := by
  constructor
  · intro h
    rw [decoder] at h
    obtain ⟨version, afterVersion, hread, hnexts⟩ := Decoder.bind_eq_ok.1 h
    obtain ⟨hversion, rfl⟩ := Decoder.word_eq_ok.1 hread
    obtain ⟨next, afterNext, rfl, hcounts⟩ := Decoder.word_bind_eq_ok.1 hnexts
    obtain ⟨count, afterCount, hread, hlists⟩ := Decoder.bind_eq_ok.1 hcounts
    obtain ⟨hcount, rfl⟩ := Decoder.word_eq_ok.1 hread
    obtain ⟨segments, afterSegments, hsegments, hlast⟩ := Decoder.bind_eq_ok.1 hlists
    obtain ⟨rfl, rfl⟩ := (Decoder.many_eq_ok SegmentMeta.decoder_eq_ok).1 hsegments
    obtain ⟨hmanifest, rfl⟩ := Decoder.pure_eq_ok.1 hlast
    subst hmanifest
    have hvalue : (UInt32.ofNat version).toNat = version := UInt32.toNat_ofNat_of_lt' hversion
    exact ⟨hcount, by simp [payload, hvalue]⟩
  · rintro ⟨hcount, rfl⟩
    simp only [payload, List.append_assoc]
    apply Decoder.bind_eq_ok.2 ⟨_, _, Decoder.word_eq_ok.2 ⟨manifest.version.toNat_lt, rfl⟩, _⟩
    apply Decoder.word_bind_eq_ok.2 ⟨_, _, rfl, _⟩
    apply Decoder.bind_eq_ok.2 ⟨_, _, Decoder.word_eq_ok.2 ⟨hcount, rfl⟩, _⟩
    apply Decoder.bind_eq_ok.2
      ⟨_, _, (Decoder.many_eq_ok SegmentMeta.decoder_eq_ok).2 ⟨rfl, rfl⟩, _⟩
    apply Decoder.pure_eq_ok.2 ⟨_, rfl⟩
    simp

theorem header_append (payload : Bytes) :
    ¬ (header payload ++ payload).length < 8 ∧
      (header payload ++ payload).take 4 = Bytes.word 4 payload.crc32.toNat ∧
      ((header payload ++ payload).drop 4).take 4 = Bytes.word 4 payload.length ∧
      (header payload ++ payload).drop 8 = payload := by
  have hcrc := Bytes.length_word 4 payload.crc32.toNat
  have hlen := Bytes.length_word 4 payload.length
  have hall : (header payload ++ payload).length = 8 + payload.length := by
    simp [header]
    omega
  refine ⟨by omega, ?_, ?_, ?_⟩
  · rw [header, List.append_assoc, List.take_append_of_le_length (by omega),
      List.take_of_length_le (by omega)]
  · rw [header, List.append_assoc, List.drop_append_of_le_length (by omega),
      List.drop_of_length_le (by omega), List.nil_append, List.take_append_of_le_length (by omega),
      List.take_of_length_le (by omega)]
  · have hheader : (header payload).length = 8 := by simp [header]
    rw [List.drop_append_of_le_length (by omega), List.drop_of_length_le (by omega), List.nil_append]

/-- The header is the only one that a payload is read behind: its two words are the checksum and the
length, and a word has one spelling. -/
theorem eq_header_append {bytes payload : Bytes} (hlong : ¬ bytes.length < 8)
    (hpayload : bytes.drop 8 = payload)
    (hlength : payload.length = Bytes.ofWord ((bytes.drop 4).take 4))
    (hcrc : payload.crc32.toNat = Bytes.ofWord (bytes.take 4)) :
    bytes = header payload ++ payload ∧ payload.length < UInt32.size := by
  have hfirst : (bytes.take 4).length = 4 := by
    rw [List.length_take]
    omega
  have hsecond : ((bytes.drop 4).take 4).length = 4 := by
    rw [List.length_take, List.length_drop]
    omega
  have hcrcWord : Bytes.word 4 payload.crc32.toNat = bytes.take 4 := by
    have h := Bytes.word_ofWord (bytes.take 4)
    rwa [hfirst, ← hcrc] at h
  have hlengthWord : Bytes.word 4 payload.length = (bytes.drop 4).take 4 := by
    have h := Bytes.word_ofWord ((bytes.drop 4).take 4)
    rwa [hsecond, ← hlength] at h
  have hrest : (bytes.drop 4).take 4 ++ payload = bytes.drop 4 := by
    have h := List.take_append_drop 4 (bytes.drop 4)
    rwa [List.drop_drop, hpayload] at h
  constructor
  · rw [header, hcrcWord, hlengthWord, List.append_assoc, hrest, List.take_append_drop]
  · have h := Bytes.ofWord_lt ((bytes.drop 4).take 4)
    rw [hsecond, ← hlength] at h
    exact h

/-- **A payload is read behind its own header,** and nothing else is read at all. -/
theorem decode_eq_ok {bytes : Bytes} {manifest : Manifest} :
    decode bytes = .ok manifest ↔ manifest.version = currentVersion ∧
      ∃ payload rest, payload.length < UInt32.size ∧ bytes = header payload ++ payload ∧
        decoder payload = .ok (manifest, rest) := by
  constructor
  · intro h
    unfold decode at h
    dsimp only at h
    -- The checks come one after the other, and each that fails ends the reading.
    split at h
    · cases h
    · next hlong =>
      split at h
      · cases h
      · next hlength =>
        split at h
        · cases h
        · next hcrc =>
          have ⟨hbytes, hfits⟩ :=
            eq_header_append hlong rfl (Decidable.not_not.1 hlength) (Decidable.not_not.1 hcrc)
          split at h
          · cases h
          · next found rest hread =>
            split at h
            · cases h
            · next hversion =>
              cases h
              exact ⟨Decidable.not_not.1 hversion, bytes.drop 8, rest, hfits, hbytes, hread⟩
  · rintro ⟨hversion, payload, rest, hfits, rfl, hread⟩
    have ⟨hlong, hcrc, hlength, hpayload⟩ := header_append payload
    -- Both words of the header come back as they were written, so both checks pass.
    have hcrcWord : Bytes.ofWord (Bytes.word 4 payload.crc32.toNat) = payload.crc32.toNat := by
      rw [Bytes.ofWord_word]
      exact Nat.mod_eq_of_lt payload.crc32.toNat_lt
    have hlengthWord : Bytes.ofWord (Bytes.word 4 payload.length) = payload.length := by
      rw [Bytes.ofWord_word]
      exact Nat.mod_eq_of_lt hfits
    unfold decode
    dsimp only
    rw [if_neg hlong, hcrc, hlength, hpayload, hcrcWord, hlengthWord, if_neg (by simp),
      if_neg (by simp), hread]
    simp [hversion]

/-- The bytes of a file that records a manifest: its payload and anything after it, behind the header
that describes both. -/
def Records (bytes : Bytes) (manifest : Manifest) : Prop :=
  ∃ rest, (manifest.payload ++ rest).length < UInt32.size ∧
    bytes = header (manifest.payload ++ rest) ++ (manifest.payload ++ rest)

theorem decode_iff_records {bytes : Bytes} {manifest : Manifest} :
    decode bytes = .ok manifest ↔ manifest.version = currentVersion ∧ Records bytes manifest := by
  rw [decode_eq_ok]
  constructor
  · rintro ⟨hversion, payload, rest, hfits, hbytes, hread⟩
    obtain ⟨_, rfl⟩ := decoder_eq_ok.1 hread
    exact ⟨hversion, rest, hfits, hbytes⟩
  · rintro ⟨hversion, rest, hfits, hbytes⟩
    exact ⟨hversion, manifest.payload ++ rest, rest, hfits, hbytes,
      decoder_eq_ok.2 ⟨length_segments_lt hfits, rfl⟩⟩

/-- What is written records the manifest, with nothing after the payload. -/
theorem records_of_encode {manifest : Manifest} {bytes : Bytes} (h : manifest.encode = .ok bytes) :
    Records bytes manifest := by
  unfold encode at h
  dsimp only at h
  split at h
  · next hfits =>
    cases h
    exact ⟨[], by simpa using hfits, by simp⟩
  · cases h

/-- **The bytes of a manifest file read back** as the manifest they were made of. -/
theorem decode_encode {manifest : Manifest} {bytes : Bytes} (h : manifest.encode = .ok bytes)
    (hversion : manifest.version = currentVersion) : decode bytes = .ok manifest :=
  decode_iff_records.2 ⟨hversion, records_of_encode h⟩

/-- The header cuts the payload out of a file, so no file records two manifests. -/
theorem Records.unique {bytes : Bytes} {manifest other : Manifest} (h : Records bytes manifest)
    (hother : Records bytes other) : manifest = other := by
  obtain ⟨rest, hfits, hbytes⟩ := h
  obtain ⟨rest', hfits', hbytes'⟩ := hother
  -- What stands behind the header is the same, and it is read in one way only.
  have hpayload : manifest.payload ++ rest = other.payload ++ rest' := by
    have ⟨_, _, _, hdrop⟩ := header_append (manifest.payload ++ rest)
    have ⟨_, _, _, hdrop'⟩ := header_append (other.payload ++ rest')
    rw [← hdrop, ← hdrop', ← hbytes, ← hbytes']
  have hread : decoder (manifest.payload ++ rest) = .ok (manifest, rest) :=
    decoder_eq_ok.2 ⟨length_segments_lt hfits, rfl⟩
  have hread' : decoder (manifest.payload ++ rest) = .ok (other, rest') :=
    decoder_eq_ok.2 ⟨length_segments_lt hfits', hpayload⟩
  rw [hread] at hread'
  cases hread'
  rfl

/-- **A file is read as a manifest of version one if and only if it records it,** whatever stands after
the payload. What is written is one such file, and a file records at most one manifest. -/
theorem decodes_exactly :
    (∀ (bytes : Bytes) (manifest : Manifest),
      decode bytes = .ok manifest ↔ manifest.version = 1 ∧ Records bytes manifest) ∧
    (∀ manifest : Manifest, manifest.version = 1 → manifest.payload.length < UInt32.size →
      ∃ bytes, manifest.encode = .ok bytes ∧ decode bytes = .ok manifest) ∧
    (∀ (bytes : Bytes) (manifest other : Manifest),
      Records bytes manifest → Records bytes other → manifest = other) := by
  refine ⟨fun bytes manifest => decode_iff_records, ?_, fun _ _ _ h hother => h.unique hother⟩
  intro manifest hversion hfits
  have hencode : manifest.encode = .ok (header manifest.payload ++ manifest.payload) := if_pos hfits
  exact ⟨_, hencode, decode_encode hencode hversion⟩

/-- A file with two octets after two records, one of which has no checksum. -/
theorem decodes_exactly_mixed :
    let mixed : Manifest := ⟨1, 9, [⟨3, 2, 40, 64, some 7⟩, ⟨8, 1, 20, 32, none⟩]⟩
    let padded := mixed.payload ++ [5, 0]
    decode (header padded ++ padded) = .ok mixed ∧
      ∃ bytes, mixed.encode = .ok bytes ∧ decode bytes = .ok mixed := by
  intro mixed padded
  have hrecords : Records (header padded ++ padded) mixed := ⟨[5, 0], by decide, rfl⟩
  exact ⟨(decodes_exactly.1 _ mixed).2 ⟨rfl, hrecords⟩, decodes_exactly.2.1 mixed rfl (by decide)⟩

/-- Whether a manifest can be written does not depend on the next generation. -/
theorem encode_current {next : UInt64} {segments : List SegmentMeta} {bytes : Bytes}
    (h : (current next segments).encode = .ok bytes) (other : UInt64) :
    ∃ bytes', (current other segments).encode = .ok bytes' := by
  have hlen : (current other segments).payload.length = (current next segments).payload.length := by
    simp [payload, current]
  unfold encode at h ⊢
  dsimp only at h ⊢
  split at h
  · next hfits => exact ⟨_, if_pos (hlen ▸ hfits)⟩
  · cases h

end Manifest

end LsmTree
