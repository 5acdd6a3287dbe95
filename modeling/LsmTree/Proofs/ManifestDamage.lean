import LsmTree.Proofs.BurstDetection
import LsmTree.Proofs.ManifestRoundTrip
import Mathlib.Data.List.Infix

/-!
# Damage to the manifest file

What is not rejected by the header checks is a payload behind its own header. Such framed bytes are far
apart: none begins another, and none differs from another by a short burst only. So bytes that come
from a manifest by damage are not framed, and whoever reads them is told so:

* **`Manifest.rejected_or_framed`** — all that the header checks let through;
* **`Manifest.Framed.eq_of_prefix`** — the length word tells where framed bytes end;
* **`Manifest.Framed.not_burst`** — the checksum tells a burst in the payload, the header one in itself;
* **`Manifest.damage_rejected`** — so a cut, an addition or a changed octet is reported as a fault of
  the manifest.
-/

namespace LsmTree

theorem Bytes.word_inj (width : Nat) {n m : Nat} (hn : n < capacity width) (hm : m < capacity width)
    (h : word width n = word width m) : n = m := by
  have hvalue := congrArg ofWord h
  rwa [ofWord_word, ofWord_word, Nat.mod_eq_of_lt hn, Nat.mod_eq_of_lt hm] at hvalue

namespace Manifest

/-! ## What the header checks let through -/

/-- The bytes are refused as no manifest file. -/
def Rejected (bytes : Bytes) : Prop :=
  ∃ fault, decode bytes = .error (.manifest fault)

/-- The bytes are a payload behind the header that describes it. -/
def Framed (bytes : Bytes) : Prop :=
  ∃ payload, payload.length < UInt32.size ∧ bytes = header payload ++ payload

theorem rejected_or_framed (bytes : Bytes) : Rejected bytes ∨ Framed bytes := by
  by_cases hshort : bytes.length < 8
  · exact .inl ⟨_, if_pos hshort⟩
  by_cases hlength : (bytes.drop 8).length = Bytes.ofWord ((bytes.drop 4).take 4)
  · by_cases hcrc : (Bytes.crc32 (bytes.drop 8)).toNat = Bytes.ofWord (bytes.take 4)
    · have ⟨hframed, hfits⟩ := eq_header_append hshort rfl hlength hcrc
      exact .inr ⟨bytes.drop 8, hfits, hframed⟩
    · refine .inl ⟨.checksum, ?_⟩
      rw [decode, if_neg hshort, if_neg (not_not.2 hlength), if_pos hcrc]
  · refine .inl ⟨.payloadLength (bytes.drop 8).length (Bytes.ofWord ((bytes.drop 4).take 4)), ?_⟩
    rw [decode, if_neg hshort, if_pos hlength]

theorem framed_of_encode {manifest : Manifest} {bytes : Bytes} (h : manifest.encode = .ok bytes) :
    Framed bytes := by
  obtain ⟨rest, hfits, hbytes⟩ := records_of_encode h
  exact ⟨_, hfits, hbytes⟩

/-! ## Framed bytes are far apart -/

/-- Framed bytes that begin others are all of them, since the length is among the first octets. -/
theorem Framed.eq_of_prefix {bytes longer : Bytes} (h : Framed bytes) (hlonger : Framed longer)
    (hbegins : bytes <+: longer) : bytes = longer := by
  obtain ⟨payload, hfits, rfl⟩ := h
  obtain ⟨payload', hfits', rfl⟩ := hlonger
  have ⟨hlong, _, hword, _⟩ := header_append payload
  have ⟨_, _, hword', _⟩ := header_append payload'
  have hfirst : ∀ front more : Bytes, ¬ front.length < 8 →
      ((front ++ more).drop 4).take 4 = (front.drop 4).take 4 := by
    intro front more hlong
    rw [List.drop_append_of_le_length (by omega), List.take_append_of_le_length]
    rw [List.length_drop]
    omega
  obtain ⟨more, hmore⟩ := hbegins
  have hlength : payload.length = payload'.length :=
    Bytes.word_inj 4 hfits hfits' (by rw [← hword, ← hword', ← hmore, hfirst _ _ hlong])
  apply List.IsPrefix.eq_of_length ⟨more, hmore⟩
  simp [header, hlength]

/-- Framed bytes do not become other framed bytes by a burst of at most four octets. -/
theorem Framed.not_burst {bytes damaged : Bytes} (h : Framed bytes) (hdamaged : Framed damaged) :
    ¬ Bytes.Burst 4 bytes damaged := by
  rintro ⟨hlength, hne, start, hwithin⟩
  obtain ⟨payload, hfits, rfl⟩ := h
  obtain ⟨payload', hfits', rfl⟩ := hdamaged
  have ⟨_, hcrc, _, hdrop⟩ := header_append payload
  have ⟨_, hcrc', _, hdrop'⟩ := header_append payload'
  have hpayload : ∀ i, 8 + i < start ∨ start + 4 ≤ 8 + i → payload'[i]? = payload[i]? := by
    intro i hi
    rw [← hdrop, ← hdrop', List.getElem?_drop, List.getElem?_drop]
    exact hwithin _ hi
  have hchanged : payload' ≠ payload := by
    rintro rfl
    exact hne rfl
  by_cases hstart : start < 4
  · -- The window ends before the payload, which determines the header.
    apply hchanged
    apply List.ext_getElem?
    intro i
    exact hpayload i (.inr (by omega))
  · -- The window leaves the recorded checksum alone, so it is the one of both payloads.
    have hword : (header payload' ++ payload').take 4 = (header payload ++ payload).take 4 := by
      apply List.ext_getElem?
      intro i
      simp only [List.getElem?_take]
      split
      · exact hwithin i (.inl (by omega))
      · rfl
    have hsame : payload'.crc32.toNat = payload.crc32.toNat := by
      apply Bytes.word_inj 4 payload'.crc32.toNat_lt payload.crc32.toNat_lt
      rw [← hcrc, ← hcrc', hword]
    refine Bytes.Burst.crc32_ne ⟨?_, hchanged, start - 8, ?_⟩ (UInt32.toNat_inj.1 hsame)
    · simpa [header] using hlength
    · intro i hi
      exact hpayload i (by omega)

/-! ## Damage -/

/-- **Damage to a manifest file is always detected:** bytes that are missing at the end or that were
added there, and an octet with another value, wherever it stands. -/
theorem damage_rejected {manifest : Manifest} {bytes : Bytes} (h : manifest.encode = .ok bytes) :
    (∀ damaged, damaged <+: bytes → damaged ≠ bytes → Rejected damaged) ∧
    (∀ damaged, bytes <+: damaged → damaged ≠ bytes → Rejected damaged) ∧
    (∀ position octet, (hposition : position < bytes.length) → octet ≠ bytes[position] →
      Rejected (bytes.set position octet)) := by
  have hframed := framed_of_encode h
  refine ⟨?_, ?_, ?_⟩
  · intro damaged hbegins hne
    rcases rejected_or_framed damaged with hrejected | hother
    · exact hrejected
    · exact absurd (hother.eq_of_prefix hframed hbegins) hne
  · intro damaged hbegins hne
    rcases rejected_or_framed damaged with hrejected | hother
    · exact hrejected
    · exact absurd (hframed.eq_of_prefix hother hbegins).symm hne
  · intro position octet hposition hoctet
    rcases rejected_or_framed (bytes.set position octet) with hrejected | hother
    · exact hrejected
    · exact absurd (Bytes.Burst.set (by omega) hposition hoctet) (hframed.not_burst hother)

/-- A file of two records that is cut within the second, that goes on, and whose count of segments has
become another. -/
theorem damage_rejected_two_segments :
    let manifest := Manifest.current 9 [⟨3, 2, 40, 64, some 7⟩, ⟨8, 1, 20, 32, none⟩]
    ∃ bytes, manifest.encode = .ok bytes ∧
      Rejected (bytes.take 80) ∧ Rejected (bytes ++ [0]) ∧ Rejected (bytes.set 20 1) := by
  intro manifest
  have hfits : manifest.payload.length < UInt32.size := by decide
  have hencode : manifest.encode = .ok (header manifest.payload ++ manifest.payload) := by
    simp only [encode, if_pos hfits]
  have hcutLength : (header manifest.payload ++ manifest.payload).length ≠ 80 := by decide
  have ⟨hcut, hmore, hset⟩ := damage_rejected hencode
  refine ⟨_, hencode, ?_, ?_, ?_⟩
  · apply hcut _ (List.take_prefix _ _)
    intro h
    apply hcutLength
    rw [← h]
    decide
  · exact hmore _ (List.prefix_append _ _) (by simp)
  · exact hset 20 1 (by decide) (by decide)

end Manifest

end LsmTree
