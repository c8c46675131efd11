import Dyn.Compress.GzipHeader

/-!
# std/compress/deflate: gzip members

`Member` is what a gzip member is: a header, a stream the engine decodes to its end, and a
trailer with the checksum and the length of the output.  `gunzip_result` says that `gunzip`
decides it.
-/

namespace Dyn.Compress

open Lib Mem

/-- The bytes begin with a member of `length` bytes that stands for `output`. -/
structure Member (bytes : List UInt8) (length : Nat) (output : List UInt8) : Prop where
  decodes : ∃ header c, headerLength bytes = some header ∧
    Runs (.start (bytes.drop header)) c ∧ c.stage = 3 ∧ c.out = output ∧
    length = header + ((bytes.drop header).length - c.bits.length / 8) + 8
  fits : length ≤ bytes.length
  checksum : little32 bytes (length - 8) = (crc32 output).toNat
  size : little32 bytes (length - 4) = output.length % 2 ^ 32

theorem gzipRound_frame (bytes : List UInt8) (member : GzipState) :
    (gzipRound bytes member).2.engine = member.engine ∧
      ((gzipRound bytes member).2.error = member.error ∨
        (gzipRound bytes member).2.error = -74) := by
  unfold gzipRound gzipText gzipCheck
  simp only
  split_ifs <;> simp

theorem gzipLoop_frame (bytes : List UInt8) :
    ∀ (n : Nat) (member : GzipState), (gzipLoop bytes n member).2.engine = member.engine ∧
        ((gzipLoop bytes n member).2.error = member.error ∨ (gzipLoop bytes n member).2.error = -74)
  | 0, member => ⟨rfl, Or.inl rfl⟩
  | n + 1, member => by
    obtain ⟨hengine, herror⟩ := gzipRound_frame bytes member
    unfold gzipLoop
    split_ifs with hgo
    · rcases hround : gzipRound bytes member with ⟨stop, member'⟩
      rw [hround] at hengine herror
      cases stop with
      | true => exact ⟨hengine, herror⟩
      | false =>
        obtain ⟨he, hr⟩ := gzipLoop_frame bytes n member'
        refine ⟨he.trans hengine, ?_⟩
        rcases hr with hr | hr
        · rcases herror with herror | herror
          · exact .inl (hr.trans herror)
          · exact .inr (hr.trans herror)
        · exact .inr hr
    · exact ⟨rfl, .inl rfl⟩

variable {bytes : List UInt8}

theorem resumeGzip_refused (h : headerLength bytes = none) (capacity : Nat)
    (destination : Nat → UInt8) :
    (resumeGzip {} capacity destination bytes).1.ok = false ∧
      (resumeGzip {} capacity destination bytes).2.1.engine.error = 0 ∧
      (resumeGzip {} capacity destination bytes).2.1.error ≠ -28 := by
  obtain ⟨hengine, herror⟩ := gzipLoop_frame bytes 5 {}
  unfold headerLength at h
  unfold resumeGzip
  rcases hloop : gzipLoop bytes 5 {} with ⟨stop, member⟩
  rw [hloop] at h hengine herror
  have hne : member.error ≠ -28 := by
    rcases herror with he | he
    · rw [show member.error = 0 from he]
      decide
    · rw [show member.error = -74 from he]
      decide
  have hzero : member.engine.error = 0 := congrArg InflateState.error hengine
  cases stop with
  | true => exact ⟨rfl, hzero, hne⟩
  | false =>
    simp only at h ⊢
    split_ifs at h with hz
    rw [if_pos hz]
    exact ⟨rfl, hzero, hne⟩

variable {header : Nat} {member : GzipState} {destination : Nat → UInt8} {output : List UInt8}
  {c : Config}

theorem resumeGzip_accepted (h : headerLength bytes = some header) :
    ∃ member : GzipState, member.engine = {} ∧ member.error = 0 ∧ member.at_ = header ∧
      member.stage = 5 ∧ ∀ capacity destination, resumeGzip {} capacity destination bytes =
          gzipBody member capacity destination bytes := by
  obtain ⟨hengine, _⟩ := gzipLoop_frame bytes 5 {}
  unfold headerLength at h
  unfold resumeGzip
  rcases hloop : gzipLoop bytes 5 {} with ⟨stop, member⟩
  rw [hloop] at h hengine
  cases stop with
  | true => cases h
  | false =>
    simp only at h
    split_ifs at h with hz
    injection h with h
    refine ⟨member, hengine, hz, h, gzipLoop_stage (by decide) hloop hz, fun _ _ => ?_⟩
    simp only
    rw [if_neg (fun hne => hne hz)]

theorem gzipBody_failed (hengine : member.engine = {}) (herror : member.error = 0) {capacity : Nat}
    (hok : (resume {} capacity destination (bytes.drop member.at_)).1.ok = false) :
    (gzipBody member capacity destination bytes).1.ok = false ∧
      (gzipBody member capacity destination bytes).2.1.engine.error =
        (resume {} capacity destination (bytes.drop member.at_)).2.1.error ∧
      (gzipBody member capacity destination bytes).2.1.error =
        (resume {} capacity destination (bytes.drop member.at_)).2.1.error := by
  unfold gzipBody
  rw [hengine]
  generalize resume {} capacity destination (bytes.drop member.at_) = body at hok ⊢
  simp only at hok ⊢
  rw [hok, if_pos (.inl (by decide))]
  refine ⟨rfl, rfl, ?_⟩
  split_ifs with hz
  · rfl
  · rw [herror]
    exact (not_not.mp hz).symm

def TrailerOk (bytes : List UInt8) (length : Nat) (output : List UInt8) : Prop :=
  length ≤ bytes.length ∧ little32 bytes (length - 8) = (crc32 output).toNat ∧
    little32 bytes (length - 4) = output.length % 2 ^ 32

instance (bytes : List UInt8) (length : Nat) (output : List UInt8) :
    Decidable (TrailerOk bytes length output) :=
  inferInstanceAs (Decidable (_ ∧ _ ∧ _))

theorem gzipBody_decoded (hengine : member.engine = {}) (herror : member.error = 0)
    (hstage : member.stage = 5) {capacity consumed : Nat}
    (hres : (resume {} capacity destination (bytes.drop member.at_)).1 =
      ⟨output.length, consumed, true⟩)
    (herr : (resume {} capacity destination (bytes.drop member.at_)).2.1.error = 0)
    (hout : (List.range output.length).map
      (resume {} capacity destination (bytes.drop member.at_)).2.2 = output) :
    let result := gzipBody member capacity destination bytes
    let length := member.at_ + consumed + 8
    if TrailerOk bytes length output then
      result.1 = ⟨output.length, length, true⟩ ∧ (List.range output.length).map result.2.2 = output
    else result.1.ok = false ∧ result.2.1.engine.error = 0 ∧ result.2.1.error ≠ -28 := by
  unfold gzipBody TrailerOk
  rw [hengine]
  generalize resume {} capacity destination (bytes.drop member.at_) = body at hres herr hout ⊢
  obtain ⟨body, engine, final⟩ := body
  subst hres
  have he : member.at_ + consumed + 8 - 8 = member.at_ + consumed := by omega
  have he' : member.at_ + consumed + 8 - 4 = member.at_ + consumed + 4 := by omega
  have hneq : ¬ engine.error ≠ 0 := fun hne => hne herr
  have h6 : ¬ member.stage = 6 := by omega
  simp only [he, he', hout, if_neg hneq, herror]
  by_cases hroom : bytes.length - (member.at_ + consumed) < 8
  · have hno : ¬ (member.at_ + consumed + 8 ≤ bytes.length ∧
        little32 bytes (member.at_ + consumed) = (crc32 output).toNat ∧
        little32 bytes (member.at_ + consumed + 4) = output.length % 2 ^ 32) := by omega
    have hshort : (!true) = true ∨ bytes.length - (member.at_ + consumed) < 8 := .inr hroom
    rw [if_neg hno, if_pos hshort]
    exact ⟨rfl, herr, show (0 : Int) ≠ -28 by decide⟩
  have hlong : ¬ ((!true) = true ∨ bytes.length - (member.at_ + consumed) < 8) := by
    rintro (hcon | hcon)
    · cases hcon
    · exact hroom hcon
  rw [if_neg hlong]
  by_cases htrailer : little32 bytes (member.at_ + consumed) = (crc32 output).toNat ∧
      little32 bytes (member.at_ + consumed + 4) = output.length % 2 ^ 32
  · have hyes : member.at_ + consumed + 8 ≤ bytes.length ∧
        little32 bytes (member.at_ + consumed) = (crc32 output).toNat ∧
        little32 bytes (member.at_ + consumed + 4) = output.length % 2 ^ 32 :=
      ⟨by omega, htrailer⟩
    rw [if_pos hyes, if_neg]
    · exact ⟨rfl, hout⟩
    rintro ⟨_, hbad | hbad⟩
    · exact hbad htrailer.1
    · exact hbad htrailer.2
  have hno : ¬ (member.at_ + consumed + 8 ≤ bytes.length ∧
      little32 bytes (member.at_ + consumed) = (crc32 output).toNat ∧
      little32 bytes (member.at_ + consumed + 4) = output.length % 2 ^ 32) :=
    fun hcon => htrailer hcon.2
  rw [if_neg hno, if_pos]
  · exact ⟨rfl, herr, show (-74 : Int) ≠ -28 by decide⟩
  refine ⟨h6, ?_⟩
  by_contra hcon
  rw [not_or, not_not, not_not] at hcon
  exact htrailer hcon

/-- The length of a member whose body ends at `c`. -/
def memberLength (bytes : List UInt8) (header : Nat) (c : Config) : Nat :=
  header + ((bytes.drop header).length - c.bits.length / 8) + 8

section Body

variable {bytes : List UInt8} {header : Nat} (hheader : headerLength bytes = some header)
include hheader

theorem gunzip_settles {c : Config} (hruns : Runs (.start (bytes.drop header)) c)
    (hdone : c.stage = 3) :
    Settles (gunzipAttempt bytes) c.out.length
      (if TrailerOk bytes (memberLength bytes header c) c.out then
        ⟨c.out, memberLength bytes header c, true⟩ else {}) := by
  obtain ⟨member, hengine, herror, rfl, hstage, hbody⟩ := resumeGzip_accepted hheader
  refine ⟨fun capacity space hcap => ?_, fun capacity space hcap => ?_⟩
  · have hrep := (resume_complete hruns hdone capacity space).resolve_right
      (fun hcon => by omega)
    obtain ⟨⟨_, hres, herr, hout⟩, _⟩ := hrep
    have hdecoded := gzipBody_decoded hengine herror hstage hres herr hout
    simp only [← hbody] at hdecoded
    change if TrailerOk bytes (memberLength bytes member.at_ c) c.out then _ else _ at hdecoded
    split_ifs at hdecoded ⊢
    · obtain ⟨h1, h2⟩ := hdecoded
      refine ⟨congrArg Result.ok h1, fun _ => ⟨?_, congrArg Result.consumed h1⟩,
        nofun⟩
      change (List.range (resumeGzip {} capacity space bytes).1.written).map _ = _
      rw [h1]
      exact h2
    obtain ⟨h1, h2, h3⟩ := hdecoded
    refine ⟨h1, nofun, fun _ => ⟨rfl, decide_eq_false ?_⟩⟩
    rintro (hcon | hcon)
    · exact absurd (h2.symm.trans hcon) (by decide)
    · exact h3 hcon
  · obtain ⟨_, hok, herr⟩ := (resume_complete hruns hdone capacity space).resolve_left
      (fun hcon => by omega)
    obtain ⟨h1, h2, _⟩ := gzipBody_failed hengine herror hok
    rw [← hbody] at h1 h2
    exact ⟨h1, decide_eq_true (.inl (h2.trans herr))⟩

theorem gunzip_settles_stuck {c : Config} (hruns : Runs (.start (bytes.drop header)) c)
    (hs : c.stage ≠ 3) (hstuck : ∀ d, absRound c ≠ .more d) :
    Settles (gunzipAttempt bytes) c.out.length {} := by
  obtain ⟨member, hengine, herror, rfl, -, hbody⟩ := resumeGzip_accepted hheader
  have hsettles := inflate_settles_stuck hruns hs hstuck
  refine ⟨fun capacity space hcap => ?_, fun capacity space hcap => ?_⟩
  · obtain ⟨hok, _, hno⟩ := hsettles.answers capacity space hcap
    have herr : ¬ (resume {} capacity space (bytes.drop member.at_)).2.1.error = -28 :=
      of_decide_eq_false (hno rfl).2
    obtain ⟨h1, h2, h3⟩ := gzipBody_failed hengine herror hok
    rw [← hbody] at h1 h2 h3
    refine ⟨h1, nofun, fun _ => ⟨rfl, decide_eq_false ?_⟩⟩
    rintro (hcon | hcon)
    · exact herr (h2.symm.trans hcon)
    · exact herr (h3.symm.trans hcon)
  obtain ⟨hok, hfull⟩ := hsettles.full capacity space hcap
  have herr : (resume {} capacity space (bytes.drop member.at_)).2.1.error = -28 :=
    of_decide_eq_true hfull
  obtain ⟨h1, h2, _⟩ := gzipBody_failed hengine herror hok
  rw [← hbody] at h1 h2
  exact ⟨h1, decide_eq_true (.inl (h2.trans herr))⟩

end Body

theorem gunzip_settles_refused (h : headerLength bytes = none) :
    Settles (gunzipAttempt bytes) 0 {} := by
  refine ⟨fun capacity space _ => ?_, fun capacity space hcap => absurd hcap (Nat.not_lt_zero _)⟩
  obtain ⟨h1, h2, h3⟩ := resumeGzip_refused h capacity space
  refine ⟨h1, nofun, fun _ => ⟨rfl, decide_eq_false ?_⟩⟩
  rintro (hcon | hcon)
  · exact absurd (h2.symm.trans hcon) (by decide)
  · exact h3 hcon

theorem stuck_not_done {stream : List UInt8} {d : Config} (hc : Runs (.start stream) c)
    (hs : c.stage ≠ 3) (hstuck : ∀ e, absRound c ≠ .more e) (hd : Runs (.start stream) d) :
    d.stage ≠ 3 := by
  intro hd3
  rcases hd.linear hc with hr | hr
  · exact hs ((hr.eq_of_done hd3) ▸ hd3)
  · exact hs ((hr.eq_of_stuck hstuck) ▸ hd3)

theorem member_of_trailer (hheader : headerLength bytes = some header)
    (hruns : Runs (.start (bytes.drop header)) c) (hdone : c.stage = 3)
    (h : TrailerOk bytes (memberLength bytes header c) c.out) :
    Member bytes (memberLength bytes header c) c.out :=
  ⟨⟨header, c, hheader, hruns, hdone, rfl, rfl⟩, h.1, h.2.1, h.2.2⟩

theorem Member.trailer {length : Nat} (h : Member bytes length output)
    (hheader : headerLength bytes = some header) (hruns : Runs (.start (bytes.drop header)) c)
    (hdone : c.stage = 3) :
    length = memberLength bytes header c ∧ output = c.out ∧ TrailerOk bytes length output := by
  obtain ⟨header', d, hheader', hd, hd3, hout, hlen⟩ := h.decodes
  rw [hheader] at hheader'
  injection hheader' with he
  subst he
  have := hruns.complete_eq hdone hd hd3
  subst this
  exact ⟨hlen, hout.symm, h.fits, h.checksum, h.size⟩

theorem gunzip_result {w : Nat} {room : Room} {result : Inflated}
    (h : gunzip w room bytes = .ok result) :
    if result.ok then Member bytes result.consumed result.value
    else ∀ length output, ¬ Member bytes length output := by
  cases hheader : headerLength bytes with
  | none =>
    rw [growUntilDone_some (gunzip_settles_refused hheader) h, if_neg (by decide)]
    intro length output hm
    obtain ⟨header, c, hcon, _⟩ := hm.decodes
    rw [hheader] at hcon
    cases hcon
  | some header =>
    obtain ⟨c, hruns, hdone | ⟨hs, hstuck⟩⟩ := exists_end (bytes.drop header)
    · have hres := growUntilDone_some (gunzip_settles hheader hruns hdone) h
      split_ifs at hres with htrailer
      · rw [hres, if_pos rfl]
        exact member_of_trailer hheader hruns hdone htrailer
      rw [hres, if_neg (by decide)]
      intro length output hm
      obtain ⟨rfl, rfl, hok⟩ := hm.trailer hheader hruns hdone
      exact htrailer hok
    rw [growUntilDone_some (gunzip_settles_stuck hheader hruns hs hstuck) h, if_neg (by decide)]
    intro length output hm
    obtain ⟨header', d, hheader', hd, hd3, _⟩ := hm.decodes
    rw [hheader] at hheader'
    injection hheader' with he
    subst he
    exact stuck_not_done hruns hs hstuck hd hd3

end Dyn.Compress
