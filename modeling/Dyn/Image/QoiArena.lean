import Dyn.Image.QoiLossless
import Dyn.Mem.ArenaRun

/-!
# QOI images in an arena

What `encode` writes is decoded to the same image (`encode_decode`), and whatever is decoded, the
decoder stays inside of its source and its destination and gives the destination back when it
fails (`decode_safe`).
-/

namespace Dyn.Qoi

open Mem List

theorem ok_bind {α β : Type} (a : α) (f : α → Except Panic β) : (Except.ok a >>= f) = f a := rfl

theorem pure_ok {α : Type} (a : α) : (pure a : Except Panic α) = .ok a := rfl

theorem u32be_putU32be (n : UInt32) : (n >>> 24).toUInt8.toUInt32 * (16777216 : UInt32) +
      (n >>> 16).toUInt8.toUInt32 * (65536 : UInt32) + (n >>> 8).toUInt8.toUInt32 * (256 : UInt32) + n.toUInt8.toUInt32 = n := by
  have hn : n.toNat < 4294967296 := n.toNat_lt
  apply UInt32.toNat_inj.mp
  simp only [UInt32.toNat_add, UInt32.toNat_mul, UInt8.toNat_toUInt32, UInt32.toNat_toUInt8,
    UInt32.toNat_shiftRight, UInt32.toNat_ofNat, Nat.shiftRight_eq_div_pow, Nat.reduceMod, Nat.reducePow]
  omega

variable {source : List UInt8}

theorem u32be_spec {i : Nat} {a b c d : UInt8} (ha : index source i = .ok a)
    (hb : index source (i + 1) = .ok b) (hc : index source (i + 2) = .ok c)
    (hd : index source (i + 3) = .ok d) : u32be source i = .ok (a.toUInt32 * (16777216 : UInt32) +
      b.toUInt32 * (65536 : UInt32) + c.toUInt32 * (256 : UInt32) + d.toUInt32) := by
  simp only [u32be, bind, Except.bind, ha, hb, hc, hd]
  rfl

theorem header_length (width height : UInt32) (channels : UInt8) (srgb : Bool) :
    (header width height channels srgb).length = 14 := rfl

theorem inspectInfo_header {width height : UInt32} {channels : UInt8} {srgb : Bool} {rest : List UInt8}
    (hwidth : width ≠ 0) (hheight : height ≠ 0) (hchannels : channels = 3 ∨ channels = 4)
    (hrest : 8 ≤ rest.length) : inspectInfo (header width height channels srgb ++ rest) =
      .ok { width := width, height := height, channels := channels, srgb := srgb, ok := true } := by
  have hlength : ¬ (header width height channels srgb ++ rest).length < 22 := by
    rw [length_append, header_length]
    omega
  have hget : ∀ (k : Nat) (byte : UInt8), (header width height channels srgb)[k]? = some byte →
      index (header width height channels srgb ++ rest) k = .ok byte := by
    intro k byte hk
    obtain ⟨hlt, _⟩ := List.getElem?_eq_some_iff.mp hk
    rw [index, getElem?_append_left hlt, hk]
  have h0 := hget 0 113 rfl
  have h1 := hget 1 111 rfl
  have h2 := hget 2 105 rfl
  have h3 := hget 3 102 rfl
  have hwide : u32be (header width height channels srgb ++ rest) 4 = .ok width := by
    rw [u32be_spec (hget 4 ((width >>> 24).toUInt8) rfl) (hget 5 ((width >>> 16).toUInt8) rfl)
      (hget 6 ((width >>> 8).toUInt8) rfl) (hget 7 (width.toUInt8) rfl), u32be_putU32be]
  have hhigh : u32be (header width height channels srgb ++ rest) 8 = .ok height := by
    rw [u32be_spec (hget 8 ((height >>> 24).toUInt8) rfl) (hget 9 ((height >>> 16).toUInt8) rfl)
      (hget 10 ((height >>> 8).toUInt8) rfl) (hget 11 (height.toUInt8) rfl), u32be_putU32be]
  have h12 := hget 12 channels rfl
  have h13 := hget 13 (if srgb then 0 else 1) rfl
  have hgood : ¬ (width = 0 ∨ height = 0 ∨ (channels ≠ 3 ∧ channels ≠ 4) ∨
      (if srgb then (0 : UInt8) else 1) > 1) := by
    rw [not_or, not_or, not_or]
    refine ⟨hwidth, hheight, ?_, ?_⟩
    · rcases hchannels with rfl | rfl <;> decide
    · cases srgb <;> decide
  have hflag : ((if srgb then (0 : UInt8) else 1) == 0) = srgb := by
    cases srgb <;> decide
  unfold inspectInfo
  rw [if_neg hlength, h0, ok_bind, h1, ok_bind, h2, ok_bind, h3, ok_bind, if_neg (by decide), hwide,
    ok_bind, hhigh, ok_bind, h12, ok_bind, h13, ok_bind, if_neg hgood, hflag, pure_ok]

theorem markerLoop_end {stop : Nat} (h : source.drop stop = [0, 0, 0, 0, 0, 0, 0, 1]) :
    markerLoop source stop 8 = .ok none := by
  have hget : ∀ (k : Nat) (byte : UInt8), [0, 0, 0, 0, 0, 0, 0, (1 : UInt8)][k]? = some byte →
      index source (stop + k) = .ok byte := by
    intro k byte hk
    rw [index, ← getElem?_drop, h, hk]
  have e0 := hget 0 0 rfl
  have e1 := hget 1 0 rfl
  have e2 := hget 2 0 rfl
  have e3 := hget 3 0 rfl
  have e4 := hget 4 0 rfl
  have e5 := hget 5 0 rfl
  have e6 := hget 6 0 rfl
  have e7 := hget 7 1 rfl
  simp only [markerLoop, bind, Except.bind, Nat.reduceSub, e0, e1, e2, e3, e4, e5, e6, e7]
  rfl

def rgba (channels : UInt8) (buffer : List UInt8) : List UInt8 :=
  (pixelList channels.toNat buffer).flatMap Pixel.bytes

theorem rgbaPixels_bytes : ∀ (count : Nat) (buffer : List UInt8), buffer.length = count * 4 →
    (rgbaPixels buffer).flatMap Pixel.bytes = buffer
  | 0, buffer, h => by
    rw [length_eq_zero_iff.mp (by omega : buffer.length = 0)]
    rfl
  | count + 1, buffer, h => by
    match buffer, h with
    | red :: green :: blue :: alpha :: rest, h =>
      rw [rgbaPixels, flatMap_cons, rgbaPixels_bytes count rest (by
        simp only [length_cons] at h
        omega)]
      rfl
    | [], h => (simp at h)
    | [_], h => (simp at h; omega)
    | [_, _], h => (simp at h; omega)
    | [_, _, _], h => (simp at h; omega)

theorem rgba_four {buffer : List UInt8} {count : Nat} (h : buffer.length = count * 4) :
    rgba 4 buffer = buffer := rgbaPixels_bytes count buffer h

theorem pixelList_length {channels : Nat} (hchannels : channels = 3 ∨ channels = 4) :
    ∀ (count : Nat) (buffer : List UInt8), buffer.length = count * channels →
    (pixelList channels buffer).length = count
  | 0, buffer, h => by
    rw [length_eq_zero_iff.mp (by omega : buffer.length = 0)]
    unfold pixelList
    split_ifs <;> rfl
  | count + 1, buffer, h => by
    obtain ⟨p, _, _, hlist, hrest⟩ := @loadPixel_spec channels hchannels buffer buffer 0 count 255
      (fun _ => rfl) (by rw [zero_mul, drop_zero]) h
    rw [hlist, length_cons, pixelList_length hchannels count _ hrest]

section RoundTrip

variable {w : Nat} {width height : UInt32} {channels : UInt8} {srgb : Bool} {pixels : List UInt8}

theorem toNat_pos {n : UInt32} (h : n ≠ 0) : 0 < n.toNat := Nat.pos_of_ne_zero fun hc => h (UInt32.toNat_inj.mp hc)

/-- **The image that the encoder writes** into a destination of `room` bytes. -/
theorem encodeInto_spec {room : Nat} (hwidth : width ≠ 0) (hheight : height ≠ 0)
    (hchannels : channels = 3 ∨ channels = 4)
    (hroom : width.toNat * height.toNat * (channels.toNat + 1) + 22 ≤ room)
    (hfits : width.toNat * height.toNat ≤ maximum w)
    (hlength : pixels.length = width.toNat * height.toNat * channels.toNat) :
    ∃ body cache, encodeInto w room pixels width height channels srgb =
        .ok { data := header width height channels srgb ++ body ++ [0, 0, 0, 0, 0, 0, 0, 1], ok := true } ∧
      Gives ⟨.initial, fun _ => 0⟩ body cache (pixelList channels.toNat pixels) ∧
      body.length ≤ width.toNat * height.toNat * (channels.toNat + 1) := by
  have hchannels' : channels.toNat = 3 ∨ channels.toNat = 4 := by
    rcases hchannels with rfl | rfl
    · exact .inl rfl
    · exact .inr rfl
  have hwide : 0 < width.toNat := toNat_pos hwidth
  have hhigh : 0 < height.toNat := toNat_pos hheight
  have hdiv : width.toNat * height.toNat / width.toNat = height.toNat := Nat.mul_div_cancel_left _ hwide
  have hcount : 0 < width.toNat * height.toNat := Nat.mul_pos hwide hhigh
  have hthree : 0 < channels.toNat := by omega
  obtain ⟨count, hcount_eq⟩ : ∃ count, width.toNat * height.toNat = count := ⟨_, rfl⟩
  rw [hcount_eq] at hroom hfits hlength hdiv hcount ⊢
  have hdiv' : pixels.length / channels.toNat = count := by
    rw [hlength, Nat.mul_div_cancel _ hthree]
  have hstart : Written channels.toNat (header width height channels srgb) []
      { out := header width height channels srgb } := by
    refine ⟨⟨[], fun _ => 0, [], (append_nil _).symm, Gives.nil _, rfl, fun _ => .inl rfl⟩,
      .inr ⟨rfl, (by decide : hash .initial ≠ 0)⟩, Nat.succ_pos 61, ?_, fun _ => rfl⟩
    rw [if_neg (lt_irrefl 0)]
    exact le_rfl
  obtain ⟨writer, hloop, hwritten, hrun⟩ := @writeLoop_spec channels.toNat room
    (header width height channels srgb) hchannels' pixels count
    (by rw [header_length, mul_comm]; omega) count _ [] (add_zero _) hstart (by omega)
    (by rw [Nat.sub_self, zero_mul, drop_zero]; exact hlength)
  rw [Nat.sub_self, zero_mul, drop_zero, nil_append] at hwritten
  obtain ⟨body, table, done, hout, hgives, hpixels, _⟩ := hwritten.gives
  rw [hrun, replicate_zero, append_nil] at hpixels
  have hsize := hwritten.size
  rw [hrun, if_neg (lt_irrefl 0), hout, length_append, header_length,
    pixelList_length hchannels' count pixels hlength, mul_comm] at hsize
  refine ⟨body, ⟨writer.previous, table⟩, ?_, by rw [hpixels]; exact hgives, by omega⟩
  have hbad : ¬ (width = 0 ∨ height = 0 ∨ (channels ≠ 3 ∧ channels ≠ 4)) := by
    rw [not_or, not_or]
    refine ⟨hwidth, hheight, ?_⟩
    rcases hchannels with rfl | rfl <;> decide
  unfold encodeInto
  rw [if_neg hbad]
  have hproduct : product w width.toNat height.toNat = .ok count := by
    rw [product, hcount_eq, if_pos hfits]
  rw [hproduct, ok_bind, if_neg (by omega), hloop, ok_bind]
  dsimp only
  rw [emit_some (by
    rw [hout, length_append, header_length]
    simp only [length_cons, length_nil]
    omega), hout]
  rfl

theorem decodeInto_spec (hwidth : width ≠ 0) (hheight : height ≠ 0) (hchannels : channels = 3 ∨ channels = 4)
    (hfits : width.toNat * height.toNat ≤ maximum w) {body : List UInt8} {cache : Cache} {list : List Pixel}
    (hgives : Gives ⟨.initial, fun _ => 0⟩ body cache list)
    (hlist : list.length = width.toNat * height.toNat) :
    decodeInto w (width.toNat * height.toNat * 4)
        (header width height channels srgb ++ body ++ [0, 0, 0, 0, 0, 0, 0, 1]) =
      .ok {
        info := { width := width, height := height, channels := channels, srgb := srgb, ok := true }
        pixels := list.flatMap Pixel.bytes
        ok := true } := by
  have hwide : 0 < width.toNat := toNat_pos hwidth
  have hdiv : width.toNat * height.toNat / width.toNat = height.toNat := Nat.mul_div_cancel_left _ hwide
  obtain ⟨count, hcount⟩ : ∃ count, width.toNat * height.toNat = count := ⟨_, rfl⟩
  rw [hcount] at hfits hlist hdiv ⊢
  have hproduct : product w width.toNat height.toNat = .ok count := by
    rw [product, hcount, if_pos hfits]
  obtain ⟨source, hsource⟩ : ∃ source,
    header width height channels srgb ++ body ++ [0, 0, 0, 0, 0, 0, 0, 1] = source := ⟨_, rfl⟩
  have hinfo : inspectInfo source =
      .ok { width := width, height := height, channels := channels, srgb := srgb, ok := true } := by
    rw [← hsource, append_assoc]
    exact inspectInfo_header hwidth hheight hchannels (by simp)
  have hstop : source.length - 8 = 14 + body.length := by
    rw [← hsource]
    simp only [length_append, header_length, length_cons, length_nil]
    omega
  have hdrop : source.drop 14 = body ++ [0, 0, 0, 0, 0, 0, 0, 1] := by
    rw [← hsource, append_assoc]
    exact drop_left' (header_length width height channels srgb)
  have hmarker : markerLoop source (14 + body.length) 8 = .ok none := by
    refine markerLoop_end ?_
    rw [← drop_drop, hdrop, drop_left]
  have hloop := hgives source _ (14 + body.length) (count * 4) 14 0 [] hdrop le_rfl (by
    rw [hlist, length_nil]
    omega)
  rw [hlist, add_zero] at hloop
  have hstart : readLoop source (14 + body.length) (count * 4) count {} [] =
      .ok (.ok (cache.reader (14 + body.length), list.flatMap Pixel.bytes)) := hloop
  rw [hsource]
  unfold decodeInto
  rw [hinfo, ok_bind, if_neg (fun hc => hc rfl)]
  dsimp only
  rw [hproduct, ok_bind, if_neg (fun hc => hc.2 hdiv), if_neg (by omega), hstop, hmarker, ok_bind]
  rw [hstart, ok_bind]
  dsimp only
  rw [if_neg (fun hc => hc rfl), pure_ok]

end RoundTrip

section Arena

variable {w : Nat} {os os' : Os} {m m' : Machine}

theorem paddingAt_one (address : Nat) : paddingAt address 1 = 0 := by
  unfold paddingAt
  rw [Nat.sub_self, Nat.and_zero]
  rfl

/-- A push of bytes is as long as it was asked for, and lies behind the header of its block. -/
theorem pushBytesUninit_spec (hinv : ArenaInv w m.arena) (hos : OsFits w os m.arena) {count : Nat}
    (hcount : 0 < count) (h : pushBytesUninit w os m count = .ok m') : ArenaInv w m'.arena ∧
      arenaMark m'.arena = arenaMark m.arena + count ∧
      m'.arena.current.base + ArenaHeader ≤ arenaMark m.arena := by
  unfold pushBytesUninit at h
  rw [if_neg (Nat.ne_of_gt hcount)] at h
  cases hpush : arenaTryPushImpl w os m count 1 false with
  | error e =>
    rw [hpush] at h
    cases h
  | ok result =>
    obtain ⟨m1, r⟩ := result
    rw [hpush, ok_bind] at h
    dsimp only at h
    rcases arenaTryPushImpl_cases hinv hos hpush with
      ⟨hfailed, _⟩ | ⟨hzero, _⟩ | ⟨_, _, a, committed, hextends, hroom, rfl, rfl⟩
    · rw [if_pos (by rw [hfailed]; decide)] at h
      cases h
    · exact absurd hzero (Nat.ne_of_gt hcount)
    rw [if_neg (by simp)] at h
    cases h
    have hmark := hextends.mark
    have hhead := hextends.inv.current_ok.header_le
    rw [landingStop, paddingAt_one, add_zero] at hroom
    refine ⟨?_, ?_, ?_⟩
    · refine advanced_inv hextends.inv ?_ ?_
      · rw [landingStop, paddingAt_one, add_zero]
        exact Nat.le_add_right _ _
      · rw [landingStop, paddingAt_one, add_zero]
        exact hroom
    · simp only [placed, advanced, arenaMark, landingStop, paddingAt_one] at hmark ⊢
      omega
    · simp only [placed, advanced, arenaMark] at hmark ⊢
      omega

def ArenaPanic (e : Panic) : Prop :=
  e = "arena exhausted or alignment invalid" ∨ e = "cannot release arena memory"

variable {e : Panic}

theorem releaseAdded_panic {a : Arena} (h : releaseAdded os a = .error e) :
    e = "cannot release arena memory" := by
  unfold releaseAdded at h
  split at h
  · cases h
  split_ifs at h
  cases h
  rfl

theorem pushInto_panic {size : Nat} {zero grew : Bool}
    (h : pushInto w os m size 1 zero grew = some (.error e)) :
    e = "cannot release arena memory" := by
  rcases pushInto_cases w os m size 1 zero grew with ⟨hnone, _⟩ | ⟨_, ⟨committed, hsome⟩ | ⟨-, hrefused⟩⟩
  · rw [hnone] at h
    cases h
  · rw [hsome] at h
    cases h
  rw [hrefused, Option.some.injEq, commitRefused] at h
  split_ifs at h
  · cases hrelease : releaseAdded os m.arena with
    | error e' =>
      rw [hrelease] at h
      cases h
      exact releaseAdded_panic hrelease
    | ok a =>
      rw [hrelease] at h
      cases h
  · cases h

theorem pushBytesUninit_panic {count : Nat} (h : pushBytesUninit w os m count = .error e) :
    ArenaPanic e := by
  unfold pushBytesUninit at h
  split_ifs at h
  cases hpush : arenaTryPushImpl w os m count 1 false with
  | ok result =>
    rw [hpush, ok_bind] at h
    dsimp only at h
    by_cases hok : result.2.ok = true
    · rw [if_neg (fun hc => hc hok)] at h
      cases h
    · rw [if_pos hok] at h
      exact .inl (Except.error.inj h).symm
  | error e' =>
    rw [hpush] at h
    cases h
    right
    unfold arenaTryPushImpl at hpush
    split_ifs at hpush
    · split at hpush
      case h_1 result hinto =>
        subst hpush
        exact pushInto_panic hinto
      case h_2 =>
        split at hpush
        case h_1 => cases hpush
        case h_2 grown _ =>
          split at hpush
          case h_1 result hinto =>
            subst hpush
            exact pushInto_panic hinto
          case h_2 => cases hpush

theorem arenaRewind_panic {mark : Nat} (hmark : mark ≤ arenaMark m.arena)
    (h : arenaRewind os m mark = .error e) : ArenaPanic e := by
  have hrelease : ∀ (drop : Block → Bool) (rest : List Block) (block : Block) (backing : Nat),
      releaseWhile os drop block rest backing = .error e → e = "cannot release arena memory" := by
    intro drop rest
    induction rest with
    | nil =>
      intro block backing hloop
      cases hloop
    | cons next rest ih =>
      intro block backing hloop
      rw [releaseWhile] at hloop
      split_ifs at hloop
      · cases hloop
        rfl
      · exact ih _ _ hloop
  unfold arenaRewind at h
  rw [if_neg (Nat.not_lt.mpr hmark)] at h
  dsimp only at h
  split at h
  case h_1 e' hloop =>
    cases h
    exact .inr (hrelease _ _ _ _ hloop)
  case h_2 => cases h

theorem arenaRewind_inside (hinv : ArenaInv w m.arena) {mark : Nat}
    (hlow : m.arena.current.base + ArenaHeader < mark) (hhigh : mark ≤ arenaMark m.arena) :
    ∃ m', arenaRewind os m mark = .ok m' ∧ arenaMark m'.arena = mark := by
  have htarget : ¬ mark < ArenaHeader := by omega
  have hloop : releaseWhile os (fun b => decide (mark ≤ b.base + ArenaHeader)) m.arena.current
      m.arena.previous m.arena.backing = .ok (m.arena.current, m.arena.previous, m.arena.backing) := by
    cases m.arena.previous with
    | nil => rfl
    | cons next rest =>
      rw [releaseWhile, if_neg (by rw [decide_eq_true_eq]; omega)]
  have hok : ∃ m', arenaRewind os m mark = .ok m' := by
    unfold arenaRewind
    rw [if_neg (Nat.not_lt.mpr hhigh), if_neg htarget]
    dsimp only
    rw [hloop]
    exact ⟨_, rfl⟩
  obtain ⟨m', hm'⟩ := hok
  refine ⟨m', hm', ?_⟩
  rw [(arenaRewind_inv hinv hm').2, rewindTarget]
  omega

end Arena

section Safety

variable {w : Nat} {source : List UInt8} {stop : Nat}

theorem index_ok {bytes : List UInt8} {i : Nat} (h : i < bytes.length) :
    index bytes i = .ok bytes[i] := by
  rw [index, getElem?_eq_getElem h]

theorem u32be_ok {i : Nat} (h : i + 3 < source.length) : ∃ n, u32be source i = .ok n :=
  ⟨_, u32be_spec (index_ok (by omega)) (index_ok (by omega)) (index_ok (by omega)) (index_ok h)⟩

theorem inspectInfo_ok (source : List UInt8) : ∃ info, inspectInfo source = .ok info ∧
    (info.ok = true → 22 ≤ source.length ∧ info.width ≠ 0 ∧ info.height ≠ 0) := by
  unfold inspectInfo
  split_ifs
  · exact ⟨_, rfl, nofun⟩
  rw [index_ok (by omega), ok_bind, index_ok (by omega), ok_bind, index_ok (by omega),
    ok_bind, index_ok (by omega), ok_bind]
  split_ifs with hmagic
  · exact ⟨_, rfl, nofun⟩
  obtain ⟨width, hwidth⟩ := @u32be_ok source 4 (by omega)
  obtain ⟨height, hheight⟩ := @u32be_ok source 8 (by omega)
  rw [hwidth, ok_bind, hheight, ok_bind, index_ok (by omega), ok_bind, index_ok (by omega), ok_bind]
  split_ifs with hbad
  · exact ⟨_, rfl, nofun⟩
  · rw [not_or, not_or] at hbad
    exact ⟨_, rfl, fun _ => ⟨by omega, hbad.1, hbad.2.1⟩⟩

/-- **A tag** is read inside of the source, and the reader stays in front of the marker. -/
theorem readTag_ok (hstop : stop ≤ source.length) (left : Nat) (reader : Reader) {input : Nat}
    (hinput : input ≤ stop) (tag : UInt8) : ∃ result,
      readTag source stop left reader input tag = .ok result ∧
      ∀ reader', result = .ok reader' → reader'.input ≤ stop := by
  unfold readTag
  split_ifs with h1 h2 h3 h4 h5 h6 h7 h8
  · exact ⟨_, rfl, nofun⟩
  · rw [index_ok (by omega), ok_bind, index_ok (by omega), ok_bind, index_ok (by omega), ok_bind]
    exact ⟨_, rfl, fun _ hc => by cases hc; exact Nat.not_lt.mp h2⟩
  · exact ⟨_, rfl, nofun⟩
  · rw [index_ok (by omega), ok_bind, index_ok (by omega), ok_bind, index_ok (by omega), ok_bind,
      index_ok (by omega), ok_bind]
    exact ⟨_, rfl, fun _ hc => by cases hc; exact Nat.not_lt.mp h4⟩
  · exact ⟨_, rfl, fun _ hc => by cases hc; exact hinput⟩
  · exact ⟨_, rfl, fun _ hc => by cases hc; exact hinput⟩
  · exact ⟨_, rfl, nofun⟩
  · rw [index_ok (by omega), ok_bind]
    exact ⟨_, rfl, fun _ hc => by cases hc; exact lt_of_le_of_ne hinput h8⟩
  · dsimp only
    split_ifs
    · exact ⟨_, rfl, nofun⟩
    · exact ⟨_, rfl, fun _ hc => by cases hc; exact hinput⟩

theorem readPixel_ok (hstop : stop ≤ source.length) (left : Nat) {reader : Reader}
    (hinput : reader.input ≤ stop) : ∃ result, readPixel source stop left reader = .ok result ∧
      ∀ reader', result = .ok reader' → reader'.input ≤ stop := by
  unfold readPixel
  split_ifs with hrun hend
  · exact ⟨_, rfl, fun _ hc => by cases hc; exact hinput⟩
  · exact ⟨_, rfl, nofun⟩
  have hlt : reader.input < stop := Nat.not_le.mp hend
  have hinside : reader.input < source.length := lt_of_lt_of_le hlt hstop
  rw [index_ok hinside, ok_bind]
  obtain ⟨result, htag, hafter⟩ := readTag_ok hstop left reader (show reader.input + 1 ≤ stop from hlt)
    source[reader.input]
  rw [htag, ok_bind]
  cases result with
  | error offset => exact ⟨_, rfl, nofun⟩
  | ok reader' => exact ⟨_, rfl, fun _ hc => by cases hc; exact hafter reader' rfl⟩

/-- **The loop over the pixels** never leaves its source or its destination. -/
theorem readLoop_ok (hstop : stop ≤ source.length) {room : Nat} : ∀ {left : Nat} {reader : Reader}
    {out : List UInt8}, reader.input ≤ stop → out.length + 4 * left ≤ room →
    ∃ result, readLoop source stop room left reader out = .ok result ∧
      ∀ reader' out', result = .ok (reader', out') → out'.length = out.length + 4 * left
  | 0, reader, out, _, _ => ⟨_, rfl, fun _ _ hc => by cases hc; rfl⟩
  | left + 1, reader, out, hinput, hroom => by
    obtain ⟨result, hpixel, hafter⟩ := readPixel_ok hstop (left + 1) hinput
    rw [readLoop, hpixel, ok_bind]
    cases result with
    | error offset => exact ⟨_, rfl, fun _ _ hc => by cases hc⟩
    | ok reader' =>
      have hlen : (out ++ reader'.pixel.bytes).length = out.length + 4 := by
        rw [length_append]
        rfl
      dsimp only
      rw [if_pos (by omega)]
      obtain ⟨result, hloop, hout⟩ := readLoop_ok hstop (hafter reader' rfl)
        (show (out ++ reader'.pixel.bytes).length + 4 * left ≤ room by omega)
      refine ⟨result, hloop, fun reader'' out' hc => ?_⟩
      rw [hout reader'' out' hc, hlen]
      omega

theorem markerLoop_ok (hstop : stop + 8 ≤ source.length) : ∀ {left : Nat}, left ≤ 8 →
    ∃ result, markerLoop source stop left = .ok result
  | 0, _ => ⟨_, rfl⟩
  | left + 1, hleft => by
    rw [markerLoop, index_ok (by omega), ok_bind]
    split_ifs
    · exact ⟨_, rfl⟩
    · exact markerLoop_ok hstop (by omega)
    · exact ⟨_, rfl⟩
    · exact markerLoop_ok hstop (by omega)

theorem decodeInto_ok {info : Info} (hinfo : inspectInfo source = .ok info) {room : Nat}
    (hfits : info.width.toNat * info.height.toNat ≤ maximum w) :
    ∃ work, decodeInto w room source = .ok work ∧ (work.ok = true →
        work.info = info ∧ work.pixels.length = info.width.toNat * info.height.toNat * 4) := by
  obtain ⟨info', hinfo', hgood⟩ := inspectInfo_ok source
  rw [hinfo] at hinfo'
  cases hinfo'
  unfold decodeInto
  rw [hinfo, ok_bind]
  by_cases hok : info.ok = true
  · rw [if_neg (fun hc => hc hok), product, if_pos hfits, ok_bind]
    obtain ⟨hlong, _⟩ := hgood hok
    split_ifs with hdiv hroom
    · exact ⟨_, rfl, nofun⟩
    · exact ⟨_, rfl, nofun⟩
    obtain ⟨marker, hmarker⟩ := @markerLoop_ok source (source.length - 8) (by omega) 8 (le_refl 8)
    obtain ⟨result, hloop, hout⟩ := @readLoop_ok source (source.length - 8) (Nat.sub_le _ _) room
      (info.width.toNat * info.height.toNat) {} [] (show 14 ≤ source.length - 8 by omega) (by
        rw [length_nil]
        omega)
    dsimp only
    rw [hmarker, ok_bind]
    cases marker with
    | some offset => exact ⟨_, rfl, nofun⟩
    | none =>
      rw [hloop, ok_bind]
      cases result with
      | error offset => exact ⟨_, rfl, nofun⟩
      | ok result =>
        obtain ⟨reader, out⟩ := result
        dsimp only
        split_ifs
        · exact ⟨_, rfl, nofun⟩
        refine ⟨_, rfl, fun _ => ⟨rfl, ?_⟩⟩
        have hlength := hout reader out rfl
        rw [length_nil] at hlength
        dsimp only
        omega
  · rw [if_pos hok]
    exact ⟨_, rfl, nofun⟩

theorem pixelCount_ne {a b c : Nat} (hc : 0 < c) (h : pixelCount w a b c ≠ 0) :
    a * b * c ≤ maximum w := by
  unfold pixelCount at h
  split_ifs at h with h1 h2
  · exact absurd rfl h
  · exact absurd rfl h
  · exact (Nat.le_div_iff_mul_le hc).mp (Nat.not_lt.mp h2)

theorem pixelCount_eq {a b c : Nat} (hb : 0 < b) (hc : 0 < c) (h : a * b * c ≤ maximum w) :
    pixelCount w a b c = a * b * c := by
  have hab : a * b ≤ maximum w := le_trans (Nat.le_mul_of_pos_right _ hc) h
  unfold pixelCount
  rw [if_neg (Nat.not_lt.mpr ((Nat.le_div_iff_mul_le hb).mpr hab)),
    if_neg (Nat.not_lt.mpr ((Nat.le_div_iff_mul_le hc).mpr h))]

/-- **Whatever the source,** the decoder returns, apart from the panics of the arena; if it fails the
position of the arena is the same, and if it does not all pixels are there. -/
theorem decode_safe {os os' : Os} {m : Machine} (hinv : ArenaInv w m.arena) (hos : OsFits w os m.arena)
    (source : List UInt8) :
    (∃ e, decode w os os' m source = .error e ∧ ArenaPanic e) ∨
      ∃ m' result, decode w os os' m source = .ok (m', result) ∧
        (result.ok = false → arenaMark m'.arena = arenaMark m.arena) ∧
        (result.ok = true → result.value.pixels.length =
          result.value.info.width.toNat * result.value.info.height.toNat * 4) := by
  obtain ⟨info, hinfo, hgood⟩ := inspectInfo_ok source
  unfold decode
  rw [hinfo, ok_bind]
  by_cases hok : info.ok = true
  · rw [if_neg (fun hc => hc hok)]
    obtain ⟨-, hwidth, hheight⟩ := hgood hok
    have hwide : 0 < info.width.toNat := toNat_pos hwidth
    have hhigh : 0 < info.height.toNat := toNat_pos hheight
    split_ifs with hsize
    · exact .inr ⟨m, _, rfl, fun _ => rfl, nofun⟩
    have hfour := pixelCount_ne (by omega) hsize
    have hfits : info.width.toNat * info.height.toNat ≤ maximum w := by omega
    unfold decodeWork
    rw [hinfo, ok_bind, if_neg (fun hc => hc hok)]
    rw [product, if_pos hfits, ok_bind, product, if_pos hfour, ok_bind]
    cases hpush : pushBytesUninit w os m (info.width.toNat * info.height.toNat * 4) with
    | error e => exact .inl ⟨e, rfl, pushBytesUninit_panic hpush⟩
    | ok m1 =>
      have hpos := Nat.mul_pos (Nat.mul_pos hwide hhigh) (show 0 < 4 by omega)
      obtain ⟨hinv1, hmark1, _⟩ := pushBytesUninit_spec hinv hos hpos hpush
      have hle : arenaMark m.arena ≤ arenaMark m1.arena := by omega
      obtain ⟨work, hwork, hpixels⟩ := @decodeInto_ok w source info hinfo
        (info.width.toNat * info.height.toNat * 4) hfits
      rw [ok_bind, hwork, ok_bind]
      by_cases hdone : work.ok = true
      · obtain ⟨hinfo', hlength⟩ := hpixels hdone
        rw [if_neg (fun hc => hc hdone)]
        refine .inr ⟨m1, decodeResult work, rfl, ?_, fun _ => ?_⟩
        · rw [decodeResult, if_neg (fun hc => hc hdone)]
          exact nofun
        · rw [decodeResult, if_neg (fun hc => hc hdone)]
          rw [hlength, hinfo']
      rw [if_pos hdone]
      cases hrewind : arenaRewind os' m1 (arenaMark m.arena) with
      | error e => exact .inl ⟨e, rfl, arenaRewind_panic hle hrewind⟩
      | ok m2 =>
        have hmark2 := (arenaRewind_inv hinv1 hrewind).2
        refine .inr ⟨m2, decodeResult work, rfl, fun _ => ?_, ?_⟩
        · rw [hmark2, rewindTarget]
          omega
        · rw [decodeResult, if_pos hdone]
          exact nofun
  · rw [if_pos hok]
    exact .inr ⟨m, _, rfl, fun _ => rfl, nofun⟩

/-- **The encoder succeeds** where the arena has room for its bound. -/
theorem encode_spec {os os' : Os} {m m1 : Machine} {width height : UInt32} {channels : UInt8} {srgb : Bool}
    {pixels : List UInt8} (hinv : ArenaInv w m.arena) (hos : OsFits w os m.arena)
    (hwidth : width ≠ 0) (hheight : height ≠ 0) (hchannels : channels = 3 ∨ channels = 4)
    (hsize : width.toNat * height.toNat * (channels.toNat + 1) + 22 ≤ maximum w)
    (hlength : pixels.length = width.toNat * height.toNat * channels.toNat)
    (hpush : pushBytesUninit w os m (width.toNat * height.toNat * (channels.toNat + 1) + 22) = .ok m1) :
    ∃ m' body cache, encode w os os' m pixels width height channels srgb = .ok (m', {
        value := header width height channels srgb ++ body ++ [0, 0, 0, 0, 0, 0, 0, 1], ok := true }) ∧
      Gives ⟨.initial, fun _ => 0⟩ body cache (pixelList channels.toNat pixels) ∧
      body.length ≤ width.toNat * height.toNat * (channels.toNat + 1) ∧
      arenaMark m'.arena = arenaMark m.arena +
        (header width height channels srgb ++ body ++ [0, 0, 0, 0, 0, 0, 0, 1]).length := by
  have hthree : 3 ≤ channels.toNat := by
    rcases hchannels with rfl | rfl
    · exact le_refl 3
    · exact Nat.le_succ 3
  have hwide : 0 < width.toNat := toNat_pos hwidth
  have hhigh : 0 < height.toNat := toNat_pos hheight
  have hcount : 0 < width.toNat * height.toNat := Nat.mul_pos hwide hhigh
  have hbad : ¬ (width = 0 ∨ height = 0 ∨ (channels ≠ 3 ∧ channels ≠ 4)) := by
    rw [not_or, not_or]
    refine ⟨hwidth, hheight, ?_⟩
    rcases hchannels with rfl | rfl <;> decide
  have hbound : width.toNat * height.toNat * (channels.toNat + 1) ≤ maximum w := by omega
  have hexact : width.toNat * height.toNat * channels.toNat ≤ maximum w :=
    le_trans (Nat.mul_le_mul_left _ (Nat.le_succ _)) hbound
  have hfits : width.toNat * height.toNat ≤ maximum w :=
    le_trans (Nat.le_mul_of_pos_right _ (Nat.succ_pos _)) hbound
  obtain ⟨body, cache, hencode, hgives, hbody⟩ :=
    @encodeInto_spec w width height channels srgb pixels
      (width.toNat * height.toNat * (channels.toNat + 1) + 22) hwidth hheight hchannels
      le_rfl hfits hlength
  obtain ⟨hinv1, hmark1, hblock⟩ := pushBytesUninit_spec hinv hos (Nat.succ_pos _) hpush
  obtain ⟨data, hdata⟩ : ∃ data,
    header width height channels srgb ++ body ++ [0, 0, 0, 0, 0, 0, 0, 1] = data := ⟨_, rfl⟩
  have hdata_length : data.length = 22 + body.length := by
    rw [← hdata]
    simp only [length_append, header_length, length_cons, length_nil]
    omega
  rw [hdata] at hencode
  obtain ⟨m', hrewind, hmark'⟩ := @arenaRewind_inside w os' m1 hinv1 (arenaMark m.arena + data.length)
    (by omega) (by omega)
  refine ⟨m', body, cache, ?_, hgives, hbody, by rw [hdata, hmark']⟩
  rw [hdata]
  have hpixels : pixelCount w width.toNat height.toNat channels.toNat = pixels.length := by
    rw [pixelCount_eq hhigh (by omega) hexact, hlength]
  have hpixels' : pixelCount w width.toNat height.toNat (channels.toNat + 1) =
      width.toNat * height.toNat * (channels.toNat + 1) := pixelCount_eq hhigh (Nat.succ_pos _) hbound
  have hpositive : 0 < pixels.length := by
    rw [hlength]
    exact Nat.mul_pos hcount (by omega)
  have hpositive' : 0 < width.toNat * height.toNat * (channels.toNat + 1) :=
    Nat.mul_pos hcount (Nat.succ_pos _)
  unfold encode
  rw [if_neg hbad]
  rw [hpixels, hpixels', if_neg (by omega), if_neg (fun hc => hc rfl)]
  unfold encodeWork
  rw [product, if_pos hfits, ok_bind, product, if_pos hbound, ok_bind, if_neg (by omega)]
  dsimp only
  rw [hpush, ok_bind, hencode, ok_bind, if_neg (fun hc => hc rfl), hrewind]
  rfl

end Safety

/-- **QOI encoding is lossless,** in arenas that have come out of any run: where there is room for the
bound, an image is encoded and its encoding is decoded to the same image; and no source makes the
decoder leave its source or its destination, or keep bytes when it fails. -/
theorem qoi_lossless {w : Nat} {trace : List St} {s : St} (hrun : Run w trace s) {os os' : Os}
    (hos : OsFits w os s.arena) :
    (∀ (width height : UInt32) (channels : UInt8) (srgb : Bool) (pixels : List UInt8) (m1 : Machine),
      width ≠ 0 → height ≠ 0 → channels = 3 ∨ channels = 4 →
      width.toNat * height.toNat * (channels.toNat + 1) + 22 ≤ maximum w →
      pixels.length = width.toNat * height.toNat * channels.toNat →
      pushBytesUninit w os s.machine (width.toNat * height.toNat * (channels.toNat + 1) + 22) = .ok m1 →
      ∃ m' data, encode w os os' s.machine pixels width height channels srgb =
          .ok (m', { value := data, ok := true }) ∧
        data.length ≤ width.toNat * height.toNat * (channels.toNat + 1) + 22 ∧
        arenaMark m'.arena = arenaMark s.arena + data.length ∧
        ∀ (os2 os2' : Os) (m2 m3 : Machine),
          pushBytesUninit w os2 m2 (width.toNat * height.toNat * 4) = .ok m3 →
          decode w os2 os2' m2 data = .ok (m3, {
            value := {
              info := { width := width, height := height, channels := channels, srgb := srgb, ok := true }
              pixels := if channels = 4 then pixels else rgba 3 pixels }
            ok := true })) ∧
    ∀ source : List UInt8, (∃ e, decode w os os' s.machine source = .error e ∧ ArenaPanic e) ∨
      ∃ m' result, decode w os os' s.machine source = .ok (m', result) ∧
        (result.ok = false → arenaMark m'.arena = arenaMark s.arena) ∧
        (result.ok = true → result.value.pixels.length =
          result.value.info.width.toNat * result.value.info.height.toNat * 4) := by
  have hinv := (run_inv hrun).arena
  refine ⟨?_, fun source => decode_safe hinv hos source⟩
  intro width height channels srgb pixels m1 hwidth hheight hchannels hsize hlength hpush
  obtain ⟨m', body, cache, hencode, hgives, hbody, hmark⟩ :=
    @encode_spec w os os' s.machine m1 width height channels srgb pixels hinv hos hwidth hheight hchannels
      hsize hlength hpush
  refine ⟨m', _, hencode, ?_, hmark, ?_⟩
  · simp only [length_append, header_length, length_cons, length_nil]
    omega
  intro os2 os2' m2 m3 hpush2
  have hchannels' : channels.toNat = 3 ∨ channels.toNat = 4 := by
    rcases hchannels with rfl | rfl
    · exact .inl rfl
    · exact .inr rfl
  have hwide : 0 < width.toNat := Nat.pos_of_ne_zero fun hc => hwidth (UInt32.toNat_inj.mp hc)
  have hhigh : 0 < height.toNat := Nat.pos_of_ne_zero fun hc => hheight (UInt32.toNat_inj.mp hc)
  have hcount : 0 < width.toNat * height.toNat := Nat.mul_pos hwide hhigh
  have hfour : width.toNat * height.toNat * 4 ≤ maximum w := by
    have hgrow : width.toNat * height.toNat * 4 ≤ width.toNat * height.toNat * (channels.toNat + 1) :=
      Nat.mul_le_mul_left _ (by omega)
    omega
  have hfits : width.toNat * height.toNat ≤ maximum w := by omega
  have hpixels : pixelCount w width.toNat height.toNat 4 ≠ 0 := by
    rw [pixelCount_eq hhigh (by omega) hfour]
    omega
  have hinfo : inspectInfo (header width height channels srgb ++ body ++ [0, 0, 0, 0, 0, 0, 0, 1]) =
      .ok { width := width, height := height, channels := channels, srgb := srgb, ok := true } := by
    rw [append_assoc]
    exact inspectInfo_header hwidth hheight hchannels (by simp)
  have hdecode := @decodeInto_spec w width height channels srgb hwidth hheight hchannels hfits body cache _
    hgives (pixelList_length hchannels' _ pixels hlength)
  have hvalue : (pixelList channels.toNat pixels).flatMap Pixel.bytes =
      if channels = 4 then pixels else rgba 3 pixels := by
    rcases hchannels with rfl | rfl
    · rfl
    · exact rgba_four hlength
  unfold decode
  rw [hinfo, ok_bind, if_neg (fun hc => hc rfl), if_neg hpixels]
  unfold decodeWork
  rw [hinfo, ok_bind, if_neg (fun hc => hc rfl)]
  rw [product, if_pos hfits, ok_bind, product, if_pos hfour, ok_bind, hpush2, ok_bind, hdecode, ok_bind,
    if_neg (fun hc => hc rfl), hvalue]
  rfl

def smallBuffer : St :=
  fresh ⟨⟨⟨4096, 1024⟩, 0, 144, 0, false⟩, [], true, 0, 0, 1024, false, 0, 0⟩ fun _ => 7

/-- A color, a run of it, another one, and the first one again. -/
def fivePixels : List UInt8 :=
  [10, 20, 30, 40, 10, 20, 30, 40, 10, 20, 30, 40, 200, 100, 50, 255, 10, 20, 30, 40]

theorem qoi_lossless_pixels : ∃ m' data m3,
    encode 64 refusing refusing smallBuffer.machine fivePixels 5 1 4 true = .ok (m', { value := data, ok := true }) ∧
    data.length ≤ 47 ∧ decode 64 refusing refusing smallBuffer.machine data = .ok (m3, {
      value := { info := { width := 5, height := 1, channels := 4, srgb := true, ok := true }, pixels := fivePixels }
      ok := true }) := by
  have hrun : Run 64 [smallBuffer] smallBuffer :=
    Run.init (@Initial.buffer 64 ⟨4096, 1024⟩ _ (fun _ => 7) (by decide) (by decide) rfl)
  obtain ⟨hencode, -⟩ := @qoi_lossless 64 _ _ hrun refusing refusing
    (fun n hn => absurd hn (by simp [refusing]))
  obtain ⟨m', data, hdata, hle, -, hdecode⟩ := hencode 5 1 4 true fivePixels _ (by decide) (by decide)
    (.inr rfl) (by decide) rfl rfl
  exact ⟨m', data, _, hdata, hle, hdecode refusing refusing smallBuffer.machine _ rfl⟩

end Dyn.Qoi
