import Nowra.SprintfSpace

/-!
# Strings that are copied

`vbuf_print` leaves a string to `sprintf` if the precision is positive, or if the field is wider
than the string. Otherwise it copies the string, "for simple string conversions and for long string
conversions". `StringAgrees` says when that prints what `sprintf` prints (`printsAsSprintf_iff`).

A precision of zero is no reason for `sprintf`, so the whole string is copied where nothing of it
should be printed (`not_printsAsSprintf`). Nor is a width or a precision that `sprintf` would read
from the directive and `vbuf_print` does not, such as a negative one.
-/

namespace Nowra

/-! ## What sprintf makes of a string -/

namespace FormatSpec

variable {f : FormatSpec} {s out : Bytes}

theorem zero_notMem_field (h : 0 ∉ s) : 0 ∉ f.field s := by
  have hblank : 0 ∉ List.replicate (f.width - s.length) (byte ' ') := fun hm =>
    absurd (List.eq_of_mem_replicate hm) (by decide)
  rw [field]
  split
  · exact fun hm => (List.mem_append.1 hm).elim h hblank
  · exact fun hm => (List.mem_append.1 hm).elim hblank h

theorem zero_notMem_takeWhile (s : Bytes) : 0 ∉ s.takeWhile (· ≠ 0) := fun hm => by
  simpa using List.mem_takeWhile_imp hm

/-- A string is printed without a null byte. -/
theorem zero_notMem_output (h : f.output (.str s) = some out) : 0 ∉ out := by
  simp only [output] at h
  split at h
  · obtain ⟨cut, hcut, rfl⟩ := Option.map_eq_some_iff.1 h
    refine zero_notMem_field ?_
    rw [FormatSpec.cut] at hcut
    split at hcut
    · split at hcut
      · exact Option.some.inj hcut ▸ zero_notMem_takeWhile _
      · cases hcut
    · split at hcut
      · exact Option.some.inj hcut ▸ zero_notMem_takeWhile _
      · cases hcut
  · cases h

/-- A string is printed as it is if the field is no wider, and no precision cuts it. One of zero
does not cut off what the field brings back. -/
theorem output_str_eq_iff (hconv : f.conv = byte 's') (h0 : 0 ∈ s) (hprec : f.prec.getD 0 = 0) :
    f.output (.str s) = some (s.takeWhile (· ≠ 0)) ↔
      f.width ≤ (s.takeWhile (· ≠ 0)).length ∧
        (f.prec = none ∨ s.takeWhile (· ≠ 0) = List.replicate f.width (byte ' ')) := by
  simp only [output, if_pos hconv]
  have hfield (s : Bytes) : (f.field s).length = max f.width s.length := f.field_length s
  cases hp : f.prec with
  | none =>
    rw [f.cut_none hp h0, Option.map_some, Option.some_inj]
    refine ⟨fun h => ⟨?_, .inl rfl⟩, fun h => ?_⟩
    · have := hfield (s.takeWhile (· ≠ 0))
      rw [h] at this
      omega
    · rw [field, Nat.sub_eq_zero_of_le h.1]
      split
      · exact List.append_nil _
      · rfl
  | some q =>
    obtain rfl : q = 0 := by rwa [hp] at hprec
    have hnil : f.field [] = List.replicate f.width (byte ' ') := by
      rw [field]
      split
      · exact List.nil_append _
      · exact List.append_nil _
    have hcut : strPrefix s 0 = [] := rfl
    rw [f.cut_some hp h0, Option.map_some, Option.some_inj, hcut, hnil]
    refine ⟨fun h => ⟨?_, .inr h.symm⟩, fun h => ?_⟩
    · rw [← h, List.length_replicate]
    · exact (h.2.resolve_left (by simp)).symm

end FormatSpec

/-! ## Printing a string -/

section

variable {libc : Libc} {s : Bytes} {ap rest : List VaArg}

/-- The run prints what `sprintf` makes of the directive and the string, or panics. -/
def PrintsAsSprintf (libc : Libc) (s : Bytes) (ap : List VaArg) (text t : Bytes) : Prop :=
  ∃ out, sprintf text (.str t) = some out ∧
    ∀ (σ : Type) (put : VbufFn σ) (space : SpaceFn σ) (I : VbufEnv σ → Prop),
      PrintReady IsPanic False put space I → Guarantees space I →
      ∀ (fmt : Option Vbuf) (b : VbufEnv σ) (junk : Bytes), (∀ vp ∈ fmt, vp.Sound) → I b →
        Yields IsPanic (vbufPrint libc put space fmt b (s ++ 0 :: junk) ap) fun st =>
          st.b.written = b.written ++ out

/-- The directive has a meaning, and if the string is left to `sprintf`, there is space for the
field and for a string without precision. Otherwise the field is no wider than the string, and there
is no precision, or nothing but blanks to print. -/
def StringAgrees (text : Bytes) (width prec : ℤ) (t : Bytes) : Prop :=
  ∃ f, formatSpec text = some f ∧
    let len := (t.takeWhile (· ≠ 0)).length
    if 0 < prec ∨ len < width then
      f.width < max width prec + 32 ∧ (f.prec = none → len < max width prec + 32)
    else
      f.width ≤ len ∧ (f.prec = none ∨ t.takeWhile (· ≠ 0) = List.replicate f.width (byte ' '))

theorem strSlow_eq {c : Conversion} {t : Bytes} (hw : 0 ≤ c.width) (h0 : 0 ∈ t) : strSlow c t =
    .ok (decide (0 < c.prec ∨ ((t.takeWhile (· ≠ 0)).length : ℤ) < c.width)) := by
  rw [strSlow]
  by_cases hprec : 0 < c.prec
  · rw [if_pos hprec]
    exact congrArg Except.ok (decide_eq_true (.inl hprec)).symm
  · rw [if_neg hprec, if_pos h0]
    by_cases hwidth : 0 < c.width
    · rw [if_pos hwidth]
      exact congrArg Except.ok (by simp [hprec])
    · rw [if_neg hwidth]
      refine congrArg Except.ok (decide_eq_false ?_).symm
      omega

/-- What comes of a directive for strings. -/
theorem Conversion.piece_str {c : Conversion} {text t : Bytes} (hs : c.type = byte 's')
    (hw : 0 ≤ c.width) (h0 : 0 ∈ t) : c.piece libc text (.str t :: rest) =
      .ok (if 0 < c.prec ∨ ((t.takeWhile (· ≠ 0)).length : ℤ) < c.width then
        .call text (c.reserved 32) (.str t) else .copy (t.takeWhile (· ≠ 0)), rest) := by
  rw [Conversion.piece, if_pos hs]
  refine bind_ok_iff.2 ⟨(t, rest), rfl, bind_ok_iff.2 ⟨_, strSlow_eq hw h0, ?_⟩⟩
  by_cases hslow : 0 < c.prec ∨ ((t.takeWhile (· ≠ 0)).length : ℤ) < c.width
  · rw [if_pos (decide_eq_true hslow), if_pos hslow]
    rfl
  · rw [if_neg (by simpa using hslow), if_neg hslow, if_pos h0]
    rfl

/-- Pieces that fit are printed, or the process panics. -/
theorem vbufPrint_yields {σ : Type} {put : VbufFn σ} {space : SpaceFn σ} {I : VbufEnv σ → Prop}
    (hI : PrintReady IsPanic False put space I) (hspace : Guarantees space I) {fmt : Option Vbuf}
    {b : VbufEnv σ} (hfmt : ∀ vp ∈ fmt, vp.Sound) (h0 : 0 ∉ s) (hb : I b) {ps : List Piece}
    {outs : List Bytes} (hps : pieces libc (items s) ap = .ok (ps, rest))
    (hfits : ∀ p ∈ ps, p.Fits libc) (houts : ps.map (Piece.out libc) = outs.map some)
    (junk : Bytes) : Yields IsPanic (vbufPrint libc put space fmt b (s ++ 0 :: junk) ap) fun st =>
      st.b.written = b.written ++ outs.flatten where
  ok st hst := by
    obtain ⟨r, hr, -, rfl⟩ := (vbufPrint_follows hfmt h0 b junk ap).ok st hst
    obtain ⟨ps', outs', hps', houts', hw⟩ := execItems_ok hI hb hr
    obtain ⟨rfl, -⟩ := Prod.mk.inj (Except.ok.inj (hps.symm.trans hps'))
    obtain rfl := (List.map_injective_iff.2 (Option.some_injective _)) (houts.symm.trans houts')
    exact hw
  error e he := by
    rcases (vbufPrint_follows hfmt h0 b junk ap).error e he with hlong | he
    · exact hlong.1
    · exact (execItems_yields hI hspace hb hps hfits).error e he

/-- A format of one piece prints it. -/
theorem vbufPrint_single {σ : Type} {put : VbufFn σ} {space : SpaceFn σ} {I : VbufEnv σ → Prop}
    (hI : PrintReady IsPanic False put space I) (hspace : Guarantees space I) {fmt : Option Vbuf}
    {b : VbufEnv σ} (hfmt : ∀ vp ∈ fmt, vp.Sound) (h0 : 0 ∉ s) (hb : I b) {p : Piece} {out : Bytes}
    (hps : pieces libc (items s) ap = .ok ([p], rest)) (hfit : p.Fits libc)
    (hout : p.out libc = some out) (junk : Bytes) :
    Yields IsPanic (vbufPrint libc put space fmt b (s ++ 0 :: junk) ap) fun st =>
      st.b.written = b.written ++ out := by
  have houts : [p].map (Piece.out libc) = [out].map some := by
    rw [List.map_singleton, List.map_singleton, hout]
  have hone := vbufPrint_yields hI hspace hfmt h0 hb hps
    (fun p hm => List.mem_singleton.1 hm ▸ hfit) houts junk
  rwa [List.flatten_singleton] at hone

theorem tight_printReady_panic : PrintReady IsPanic False tightPutReady tightSpace Tight :=
  tight_printReady.weaken (fun _ h => h.elim) id

/-- A string that is left to `sprintf` is printed if there is space for it. -/
theorem printsAsSprintf_call {text t : Bytes} {n : ℕ} (h0 : 0 ∉ s)
    (hps : pieces libc (items s) ap = .ok ([.call text n (.str t)], rest)) :
    ((Piece.call text n (.str t)).Fits libc → PrintsAsSprintf libc s ap text t) ∧
      (s.length < 2 ^ 29 → PrintsAsSprintf libc s ap text t →
        (Piece.call text n (.str t)).Fits libc) := by
  refine ⟨fun hfit => ?_, fun hlen hprints => ?_⟩
  · obtain ⟨out, hout, hlt⟩ := hfit
    refine ⟨out, hout, fun σ put space I hI hspace fmt b junk hfmt hb => ?_⟩
    obtain ⟨f, hf, hout'⟩ := Option.bind_eq_some_iff.1 hout
    refine vbufPrint_single hI hspace hfmt h0 hb hps ⟨out, hout, hlt⟩ ?_ junk
    rw [Piece.out, hout, Option.map_some, takeWhile_null_of_notMem (f.zero_notMem_output hout')]
  · obtain ⟨out, hout, hrun⟩ := hprints
    have hb : Tight ⟨⟨[], 0, 0, 0⟩, ()⟩ := rfl
    rcases vbufPrint_tight h0 hlen hb hps with ⟨hfits, -⟩ | ⟨-, herr⟩
    · exact hfits _ List.mem_cons_self
    · obtain ⟨p, hp⟩ := (hrun Unit _ _ _ tight_printReady_panic tight_guarantees none _ []
        (fun vp h => by cases h) hb).error _ herr
      cases hp

/-- A string that is copied is printed as `sprintf` prints it if the bytes are the same. -/
theorem printsAsSprintf_copy {text t copy : Bytes} (h0 : 0 ∉ s)
    (hps : pieces libc (items s) ap = .ok ([.copy copy], rest)) :
    (sprintf text (.str t) = some copy → PrintsAsSprintf libc s ap text t) ∧
      (s.length < 2 ^ 29 → PrintsAsSprintf libc s ap text t →
        sprintf text (.str t) = some copy) := by
  refine ⟨fun hout => ⟨_, hout, fun σ put space I hI hspace fmt b junk hfmt hb => ?_⟩,
    fun hlen hprints => ?_⟩
  · exact vbufPrint_single hI hspace hfmt h0 hb hps trivial rfl junk
  · obtain ⟨out, hout, hrun⟩ := hprints
    have hb : Tight ⟨⟨[], 0, 0, 0⟩, ()⟩ := rfl
    have hno : ∀ vp ∈ (none : Option Vbuf), vp.Sound := fun vp h => by cases h
    obtain ⟨st, hst⟩ : ∃ st, vbufPrint libc tightPutReady tightSpace none ⟨⟨[], 0, 0, 0⟩, ()⟩
        (s ++ [0]) ap = .ok st := by
      refine ((vbufPrint_tight h0 hlen hb hps).resolve_right fun hno => hno.1 fun p hm => ?_).2
      exact List.mem_singleton.1 hm ▸ trivial
    have hw := (vbufPrint_single tight_printReady_panic tight_guarantees hno h0 hb hps trivial rfl
      []).ok st hst
    have hw' := (hrun Unit _ _ _ tight_printReady_panic tight_guarantees none _ [] hno hb).ok st hst
    rw [hout, List.append_cancel_left (hw'.symm.trans hw)]

/-- A string is printed as `sprintf` does it if and only if `StringAgrees` holds. Where it does not,
a run shows it, unless the format is so long that every run may panic. -/
theorem printsAsSprintf_iff {d : Directive} {text t : Bytes} {width prec : ℤ} (hs : 0 ∉ s)
    (hitems : items s = [.directive d (byte 's')])
    (hd : d.assemble ap = .ok (text, width, prec, .str t :: rest)) (ht : 0 ∈ t) :
    (StringAgrees (text ++ [byte 's']) width prec t →
        PrintsAsSprintf libc s ap (text ++ [byte 's']) t) ∧
      (s.length < 2 ^ 29 → PrintsAsSprintf libc s ap (text ++ [byte 's']) t →
        StringAgrees (text ++ [byte 's']) width prec t) := by
  obtain ⟨hw0, hw, hp0, hprec⟩ := d.assemble_range hd
  have hpiece := @Conversion.piece_str libc rest ⟨byte 's', width, prec, d.long⟩
    (text ++ [byte 's']) t rfl hw0 ht
  simp only at hpiece
  generalize hp : (if 0 < prec ∨ ((t.takeWhile (· ≠ 0)).length : ℤ) < width then _ else _) = p
    at hpiece
  have hps : pieces libc (items s) ap = .ok ([p], rest) := by
    rw [hitems]
    exact bind_ok_iff.2 ⟨(p, rest), bind_ok_iff.2 ⟨_, hd, hpiece⟩, bind_ok_iff.2 ⟨_, rfl, rfl⟩⟩
  by_cases hslow : 0 < prec ∨ ((t.takeWhile (· ≠ 0)).length : ℤ) < width
  · rw [if_pos hslow] at hp
    subst hp
    have hfits := Conversion.fits_iff hd (by decide) (fun s tl h => by cases h; exact ht) hpiece
    have hreserved := Directive.reserved_eq hd (byte 's')
    generalize Conversion.reserved ⟨byte 's', width, prec, d.long⟩ 32 = n at *
    have hagrees : StringAgrees (text ++ [byte 's']) width prec t ↔
        (Piece.call (text ++ [byte 's']) n (.str t)).Bounded := by
      simp only [StringAgrees, if_pos hslow, Piece.Bounded, ← hreserved, Int.ofNat_lt]
      refine exists_congr fun f => and_congr_right fun _ => and_congr_right fun _ => ?_
      refine forall_congr' fun _ => ⟨fun h s hst => ?_, fun h => h t rfl⟩
      exact VaArg.str.inj hst ▸ h
    rw [hagrees, ← hfits]
    exact printsAsSprintf_call hs hps
  · rw [if_neg hslow] at hp
    subst hp
    have hagrees : StringAgrees (text ++ [byte 's']) width prec t ↔
        sprintf (text ++ [byte 's']) (.str t) = some (t.takeWhile (· ≠ 0)) := by
      simp only [StringAgrees, if_neg hslow, sprintf, Option.bind_eq_some_iff]
      refine exists_congr fun f => and_congr_right fun hf => ?_
      obtain ⟨hconv, -, hread⟩ := formatSpec_assemble hd hf
      refine (FormatSpec.output_str_eq_iff hconv ht ?_).symm
      cases hq : f.prec with
      | none => rfl
      | some q =>
        have := hread q hq
        rw [Option.getD_some]
        omega
    rw [hagrees]
    exact printsAsSprintf_copy hs hps

end

/-- A string is shorter than its field, and is left to `sprintf`. -/
theorem printsAsSprintf_iff_five :
    StringAgrees (cstr "%5s") 5 0 (cstr "abc" ++ [0]) ∧
      PrintsAsSprintf ⟨fun _ _ => none, []⟩ (cstr "%5s") [.str (cstr "abc" ++ [0])] (cstr "%5s")
        (cstr "abc" ++ [0]) := by
  have hspec : formatSpec (cstr "%5s") = some ⟨false, false, false, 5, none, false, byte 's'⟩ := by
    decide +kernel
  have hagrees : StringAgrees (cstr "%5s") 5 0 (cstr "abc" ++ [0]) :=
    ⟨_, hspec, by decide +kernel⟩
  have hitems : items (cstr "%5s") =
      [.directive ⟨false, false, false, .lit ⟨cstr "5", by decide⟩, false, .lit ⟨[], by simp⟩,
        false⟩ (byte 's')] := by
    decide +kernel
  have hd : Directive.assemble ⟨false, false, false, .lit ⟨cstr "5", by decide⟩, false,
      .lit ⟨[], by simp⟩, false⟩ [.str (cstr "abc" ++ [0])] =
        .ok (cstr "%5", 5, 0, [.str (cstr "abc" ++ [0])]) :=
    toOption_eq_some (by decide +kernel)
  exact ⟨hagrees, (printsAsSprintf_iff (by decide) hitems hd (by decide)).1 hagrees⟩

/-- Nothing of the string should be printed, and all of it is. -/
theorem not_printsAsSprintf :
    sprintf (cstr "%.0s") (.str (cstr "abc" ++ [0])) = some [] ∧
      (∃ st, vbufPrint ⟨fun _ _ => none, []⟩ tightPutReady tightSpace none ⟨⟨[], 0, 0, 0⟩, ()⟩
        (cstr "%.0s" ++ [0]) [.str (cstr "abc" ++ [0])] = .ok st ∧ st.b.written = cstr "abc") ∧
      ¬PrintsAsSprintf ⟨fun _ _ => none, []⟩ (cstr "%.0s") [.str (cstr "abc" ++ [0])] (cstr "%.0s")
        (cstr "abc" ++ [0]) := by
  have hnothing : sprintf (cstr "%.0s") (.str (cstr "abc" ++ [0])) = some [] := by
    decide +kernel
  have hrun : ((vbufPrint ⟨fun _ _ => none, []⟩ tightPutReady tightSpace none ⟨⟨[], 0, 0, 0⟩, ()⟩
      (cstr "%.0s" ++ [0]) [.str (cstr "abc" ++ [0])]).toOption.any
        fun st => st.b.written = cstr "abc") = true := by
    decide +kernel
  obtain ⟨st, hst, hw⟩ := (Option.any_eq_true _ _).1 hrun
  have hst' := toOption_eq_some hst
  have hw' : st.b.written = cstr "abc" := of_decide_eq_true hw
  refine ⟨hnothing, ⟨st, hst', hw'⟩, ?_⟩
  rintro ⟨out, hout, hall⟩
  obtain rfl := Option.some.inj (hnothing.symm.trans hout)
  have hno := (hall Unit _ _ _ tight_printReady_panic tight_guarantees none ⟨⟨[], 0, 0, 0⟩, ()⟩ []
    (fun vp h => by cases h) rfl).ok st hst'
  rw [hw'] at hno
  exact absurd hno (by decide)

end Nowra
