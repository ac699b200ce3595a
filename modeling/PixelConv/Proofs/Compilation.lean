import PixelConv.Proofs.Building
import PixelConv.Proofs.Rows

/-!
# Compiling with and without simplification

A compiler with the portable backend only, asked to simplify or not. Main statement: on integer
programs that fit together, simplification never makes a program fail to compile, and what comes of
it stores the same pixels (`Compiler.simplify_keeps_pixels`).

There is one thing that simplification may need more: a copy is made in the shape that the program
reads, of which the program may write a part only. Such a copy needs room for all of it in the
destination, and faults where there is none (`Compiler.firstPlane_copy_faults`).
-/

namespace PixelConv

/-! ## 1. Compilers with the portable backend only -/

namespace Compiler

/-- Why there is no conversion, if there is none. -/
def refusal? : Except CompileError Conversion → Option CompileError
  | .error e => some e
  | .ok _ => none

theorem refusal?_eq_some {result : Except CompileError Conversion} {e : CompileError}
    (h : refusal? result = some e) : result = .error e := by
  cases result with
  | error e' => exact congrArg Except.error (Option.some.inj h)
  | ok c => cases h

/-- A compiler that has the portable backend only. -/
def portable (cpu : CpuSet) (simplify : Bool) : Compiler := ⟨[Backend.portable], cpu, simplify⟩

variable {cpu : CpuSet} {p q : Program} {report : Report} {c : Conversion} {log : Log}
  {failure : CompileError} {place : Option Nat} {matched : List Match}

theorem contains_none (cpu : CpuSet) : cpu.contains Backend.portable.needs = true := rfl

theorem build_of_tryBackends
    (h : tryBackends cpu p log failure place [Backend.portable] = .ok report)
    (hc : report.result = .ok c) : ∃ matched, Backend.portable.build p cpu = .ok (matched, .ok c) := by
  rw [tryBackends, if_pos (contains_none cpu)] at h
  split at h
  · cases h
  · rename_i found conversion hbuild
    cases h
    cases hc
    exact ⟨found, hbuild⟩
  · simp only at h
    split at h
    · cases h
      cases hc
    · cases h
      cases hc

theorem tryBackends_of_build (h : Backend.portable.build p cpu = .ok (matched, .ok c)) :
    ∃ report, tryBackends cpu p log failure place [Backend.portable] = .ok report ∧
      report.result = .ok c := by
  rw [tryBackends, if_pos (contains_none cpu), h]
  exact ⟨_, rfl, rfl⟩

/-- A program that the backend does not take is refused for the reason that the backend gives. -/
theorem tryBackends_of_error {e : CompileError}
    (h : Backend.portable.build p cpu = .ok (matched, .error e)) :
    ∃ report, tryBackends cpu p log failure place [Backend.portable] = .ok report ∧
      report.result = .error e := by
  rw [tryBackends, if_pos (contains_none cpu), h]
  simp only
  split
  · exact ⟨_, rfl, rfl⟩
  · exact ⟨_, rfl, rfl⟩

/-- A compiled program has passed the check as it was given. -/
theorem check_of_compile {compiler : Compiler} (h : compiler.compile p = .ok report)
    (hc : report.result = .ok c) : p.check = .ok (.ok ()) := by
  unfold compile at h
  split at h
  · cases h
  · cases h
    cases hc
  · assumption

/-- What a compiler that does not simplify has found out about a program that it compiles. -/
theorem of_compile_plain (h : (portable cpu false).compile p = .ok report)
    (hc : report.result = .ok c) : p.Measurable ∧ p.analyse.check = .ok (.ok ()) ∧
      ∃ matched, Backend.portable.build p.analyse cpu = .ok (matched, .ok c) := by
  unfold compile at h
  split at h
  · cases h
  · cases h
    cases hc
  rename_i hcheck
  obtain ⟨r, w, inner, hp, -⟩ := Program.check_eq_ok hcheck
  obtain ⟨inner', hpa, -⟩ := hp.congr (Program.codes_analyse p).symm
  rw [hp.ends] at h
  by_cases hm : p.Measurable
  · simp only [prepare, portable, Bool.false_eq_true, if_false, Program.analysis_of_measurable hm,
      Except.map, finish, hpa.isEmpty_ops] at h
    split at h
    · cases h
    · cases h
      cases hc
    · rename_i hcheck'
      exact ⟨hm, hcheck', build_of_tryBackends h hc⟩
  · simp only [prepare, portable, Bool.false_eq_true, if_false,
      Program.analysis_of_not_measurable hm, Except.map] at h
    cases h

/-- A compiler that simplifies hands on what a checked program simplifies to. -/
theorem compile_eq_finish {compiler : Compiler} {r w : Shape} {inner : List Op} {rules : List Applied}
    (hp : p.Framed r w inner) (hcheck : p.check = .ok (.ok ())) (hc : compiler.simplify = true)
    (hsimplify : p.simplify = .ok (rules, q)) :
    compiler.compile p = compiler.finish r ⟨rules, [], [], [], [], some q.text⟩ q := by
  simp only [compile, hcheck, hp.ends, prepare, hc, if_true, hsimplify]

/-- What simplification breaks off with, a compiler that simplifies does. -/
theorem compile_of_fault {compiler : Compiler} {r w : Shape} {inner : List Op} {f : Fault}
    (hp : p.Framed r w inner) (hcheck : p.check = .ok (.ok ())) (hc : compiler.simplify = true)
    (hsimplify : p.simplify = .error f) : compiler.compile p = .error f := by
  simp only [compile, hcheck, hp.ends, prepare, hc, if_true, hsimplify]

/-- A program without operations is a copy. -/
theorem finish_of_nil {compiler : Compiler} {r : Shape} (hq : q.ops = []) :
    compiler.finish r log q = .ok ⟨.ok (Conversion.ofCopy r), log⟩ := by
  simp only [finish, hq, List.isEmpty_nil, if_true]

/-- A checked program with operations goes to the backends. -/
theorem finish_of_check {compiler : Compiler} {r : Shape} (hq : q.ops ≠ [])
    (hcheck : q.check = .ok (.ok ())) : compiler.finish r log q =
      tryBackends compiler.cpu q log (.unsupported .noBackend) none compiler.backends := by
  have hempty : q.ops.isEmpty = false := by
    rw [List.isEmpty_eq_false_iff]
    exact hq
  simp only [finish, hempty, Bool.false_eq_true, if_false, hcheck]

theorem finish_of_malformed {compiler : Compiler} {r : Shape} {e : Malformed} (hq : q.ops ≠ [])
    (hcheck : q.check = .ok (.error e)) :
    compiler.finish r log q = .ok ⟨.error (.invalid e), log⟩ := by
  have hempty : q.ops.isEmpty = false := by
    rw [List.isEmpty_eq_false_iff]
    exact hq
  simp only [finish, hempty, Bool.false_eq_true, if_false, hcheck]

/-- A program that simplifies to nothing is a copy of the shape that it reads. -/
theorem compile_of_copy {r w : Shape} {inner : List Op} {rules : List Applied}
    (hp : p.Framed r w inner) (hcheck : p.check = .ok (.ok ()))
    (hsimplify : p.simplify = .ok (rules, q)) (hq : q.ops = []) :
    ∃ report, (portable cpu true).compile p = .ok report ∧
      report.result = .ok (Conversion.ofCopy r) := by
  rw [compile_eq_finish hp hcheck rfl hsimplify, finish_of_nil hq]
  exact ⟨_, rfl, rfl⟩

/-- Otherwise the backend gets what it simplifies to. -/
theorem compile_of_build {r w r' w' : Shape} {inner inner' : List Op} {rules : List Applied}
    (hp : p.Framed r w inner) (hcheck : p.check = .ok (.ok ()))
    (hsimplify : p.simplify = .ok (rules, q)) (hq : q.Framed r' w' inner')
    (hqcheck : q.check = .ok (.ok ()))
    (hbuild : Backend.portable.build q cpu = .ok (matched, .ok c)) :
    ∃ report, (portable cpu true).compile p = .ok report ∧ report.result = .ok c := by
  have hops : q.ops ≠ [] := List.isEmpty_eq_false_iff.mp hq.isEmpty_ops
  rw [compile_eq_finish hp hcheck rfl hsimplify, finish_of_check hops hqcheck]
  exact tryBackends_of_build hbuild

/-- **What a compiled conversion is**: a copy of what the program reads, or what the backend has built
from a checked program between narrower shapes. -/
theorem of_compile {simplify : Bool} {r w : Shape} {inner : List Op} (hp : p.Framed r w inner)
    (h : (portable cpu simplify).compile p = .ok report) (hc : report.result = .ok c) :
    c = Conversion.ofCopy r ∨ ∃ q r' w' inner' matched, q.check = .ok (.ok ()) ∧
      q.Framed r' w' inner' ∧ r'.Narrows r ∧ w'.Narrows w ∧
      Backend.portable.build q cpu = .ok (matched, .ok c) := by
  have hcheck := check_of_compile h hc
  cases simplify with
  | false =>
    obtain ⟨-, hcheck', matched, hbuild⟩ := of_compile_plain h hc
    obtain ⟨inner', hpa, -⟩ := hp.congr (Program.codes_analyse p).symm
    exact .inr ⟨p.analyse, r, w, inner', matched, hcheck', hpa,
      .refl (Layout.wellFormed_iff.mp hp.read).1, .refl (Layout.wellFormed_iff.mp hp.write).1, hbuild⟩
  | true =>
    rcases hp.simplify_cases with ⟨rules, q, hsimplify⟩ | hsimplify
    · rw [compile_eq_finish hp hcheck rfl hsimplify] at h
      rcases hp.of_simplify hsimplify with hnil | ⟨r', w', inner', hqa, hr, hw⟩
      · rw [finish_of_nil hnil] at h
        cases h
        exact .inl (Except.ok.inj hc).symm
      · have hops : q.ops ≠ [] := List.isEmpty_eq_false_iff.mp hqa.isEmpty_ops
        cases hcheck' : q.check with
        | error f =>
          simp only [finish, hqa.isEmpty_ops, Bool.false_eq_true, if_false, hcheck'] at h
          cases h
        | ok result =>
          cases result with
          | error e =>
            rw [finish_of_malformed hops hcheck'] at h
            cases h
            cases hc
          | ok done =>
            rw [finish_of_check hops hcheck'] at h
            obtain ⟨matched, hbuild⟩ := build_of_tryBackends h hc
            exact .inr ⟨q, r', w', inner', matched, hcheck', hqa, hr, hw, hbuild⟩
    · rw [compile_of_fault hp hcheck rfl hsimplify] at h
      cases h

/-- What a compiler gives, told by a property of it that can be computed. -/
theorem exists_report {c : Compiler} {α : Type} {g : Conversion → α} {a : α}
    (h : ((c.compile p).toOption.bind fun report => report.result.toOption.map g) = some a) :
    ∃ report conversion, c.compile p = .ok report ∧ report.result = .ok conversion ∧
      g conversion = a := by
  cases hc : c.compile p with
  | error f =>
    rw [hc] at h
    cases h
  | ok report =>
    rw [hc] at h
    have h : report.result.toOption.map g = some a := h
    cases hr : report.result with
    | error e =>
      rw [hr] at h
      cases h
    | ok conversion =>
      rw [hr] at h
      exact ⟨report, conversion, rfl, hr, Option.some.inj h⟩

/-- Why a compiler refuses a program, told by computation. -/
theorem exists_refusal {c : Compiler} {e : CompileError}
    (h : ((c.compile p).toOption.bind fun report => refusal? report.result) = some e) :
    ∃ report, c.compile p = .ok report ∧ report.result = .error e := by
  cases hc : c.compile p with
  | error f =>
    rw [hc] at h
    cases h
  | ok report =>
    rw [hc] at h
    exact ⟨report, rfl, refusal?_eq_some h⟩

/-- Why a program is refused, told by computation on the operations that it simplifies to. -/
theorem refused_of_codes {e : CompileError} (hcheck : p.check = .ok (.ok ()))
    (hcodes : (p.simplify.toOption.map fun answer => (codes answer.2.ops, answer.2.depths)) =
      some (codes q.ops, q.depths))
    (hq : q.analyse.check = .ok (.ok ()))
    (hbuild : ((Backend.portable.build q.analyse cpu).toOption.bind
      fun built => refusal? built.2) = some e) :
    ∃ report, (portable cpu true).compile p = .ok report ∧ report.result = .error e := by
  obtain ⟨r, w, inner, hp, -⟩ := Program.check_eq_ok hcheck
  obtain ⟨r', w', inner', hqa, -⟩ := Program.check_eq_ok hq
  obtain ⟨rules, hsimplify⟩ := Program.simplify_eq_of_codes hcodes
  have hops : q.analyse.ops ≠ [] := List.isEmpty_eq_false_iff.mp hqa.isEmpty_ops
  rw [compile_eq_finish hp hcheck rfl hsimplify, finish_of_check hops hq]
  cases hb : Backend.portable.build q.analyse cpu with
  | error f =>
    rw [hb] at hbuild
    cases hbuild
  | ok built =>
    obtain ⟨matched, result⟩ := built
    rw [hb] at hbuild
    obtain rfl := refusal?_eq_some (show refusal? result = some e from hbuild)
    exact tryBackends_of_error hb

end Compiler

/-! ## 2. Programs that were compiled -/

variable {p q q' : Program} {r w r' w' : Shape} {inner : List Op}

/-- **A program that passes the check and can be run can stand for itself.** -/
theorem Program.Framed.stands (hp : p.Framed r w inner) (htyped : p.Typed) (hrun : Runnable p.ops)
    (hr : r.Regular) (hw : w.Regular)
    (hscale : ∀ op ∈ p.ops, op.elem = .u32 → ∀ factor, op.kind ≠ .scale factor)
    (hcheck : p.analyse.check = .ok (.ok ())) : p.Stands p r w := by
  have hc := codes_analyse p
  refine ⟨rfl, ⟨r, w, inner, hp, .refl hr.count_pos, .refl hw.count_pos, rfl⟩,
    hp.typedFrom htyped, hrun, fun src _ => tame_of_scales hscale, fun src _ => rfl, fun src _ => ?_⟩
  obtain ⟨inner', hpa, -⟩ := hp.congr hc.symm
  obtain ⟨r', w', inner'', hpa', hwritten⟩ := check_eq_ok hcheck
  have hends := hpa'.ends.symm.trans hpa.ends
  cases hends
  refine (hpa'.checkWritten_iff (fun op hop => ?_) src).mp (hwritten rfl)
  obtain ⟨ri, wi, hops⟩ := hpa'.ops
  refine (hrun.congr hc.symm).exact op ?_
  rw [hops]
  exact List.mem_cons_of_mem _ (List.mem_append_left _ hop)

/-- An integer program that was compiled as it is can stand for itself. -/
theorem Program.Framed.stands_of_build {cpu : CpuSet} {matched : List Match} {c : Conversion}
    (hp : p.Framed r w inner) (htyped : p.Typed) (hint : ∀ op ∈ p.ops, op.isIntegral = true)
    (hcheck : p.analyse.check = .ok (.ok ()))
    (hbuild : Backend.portable.build p.analyse cpu = .ok (matched, .ok c)) :
    p.Stands p r w ∧ r.Regular ∧ w.Regular := by
  have hc := codes_analyse p
  obtain ⟨inner', hpa, -⟩ := hp.congr hc.symm
  have hrun : Runnable p.ops := .congr hc
    (Backend.runnable_of_build hpa (forall_of_codes Op.isIntegral_congr hc.symm hint) hbuild)
  obtain ⟨hr, hw⟩ := hp.regular hrun fun op hop l => Op.frac_le_of_isIntegral (hint op hop)
  exact ⟨hp.stands htyped hrun hr hw (fun op hop => Op.scale_of_isIntegral (hint op hop)) hcheck,
    hr, hw⟩

/-- A program that moves bytes can stand for itself. -/
theorem Program.Framed.stands_of_movesBytes (hp : p.Framed r w inner) (htyped : p.Typed)
    (hmoves : ∀ op ∈ p.ops, op.MovesBytes) (hcheck : p.analyse.check = .ok (.ok ())) :
    p.Stands p r w ∧ r.Regular := by
  obtain ⟨hr, hw⟩ := hp.regular (.inr hmoves) fun op hop l hl => by
    rw [(hmoves op hop).frac_eq hl]
    exact Nat.zero_le 3
  refine ⟨hp.stands htyped (.inr hmoves) hr hw (fun op hop _ factor hk => ?_) hcheck, hr⟩
  have hmove := hmoves op hop
  rw [Op.MovesBytes, hk] at hmove
  exact hmove

/-! ## 3. The same elements -/

/-- **Programs that stand for the same one store the same elements.** -/
theorem Conversion.Performs.element_eq {c c' : Conversion} {f f' : Nat → Nat → Pixel → Pixel}
    (hc : c.Performs q r w f) (hc' : c'.Performs q' r' w' f') (hq : p.Stands q r w)
    (hq' : p.Stands q' r w) (hframe : q'.Framed r' w' inner) (hr : r'.Narrows r)
    (hw : w'.Narrows w) {planes : Quad Bytes} {x : Nat}
    (hsrc : r.WithinDepths p.depths ((r.pixel planes x).map UInt32.toNat)) (y : Nat) {k : Fin 4}
    (hk : k.val < w.layout.count) :
    (f' x y (r'.pixel planes x)) k = (f x y (r.pixel planes x)) k := by
  have hsupplies := Shape.supplies_pixel hsrc
  obtain ⟨n, hn⟩ := Option.isSome_iff_exists.mp (hq.defined _ hsupplies k hk)
  have hn' : (q'.written (r'.pixel planes x)) k = some n := by
    have hsame : ∀ i : Fin 4, i.val < r'.layout.count →
        ((r'.pixel planes x).map UInt32.toNat) i = ((r.pixel planes x).map UInt32.toNat) i := by
      intro i hi
      rw [Quad.get_map, Quad.get_map, hr.pixel_eq hi]
    rw [Program.written, hframe.actAll_congr hsame, hq'.written _ hsupplies,
      ← hq.written _ hsupplies]
    exact hn
  apply UInt32.toNat_inj.mp
  rw [hc.stores x y _ (r.holds_pixel planes x) k n hn,
    hc'.stores x y _ (r'.holds_pixel planes x) k n hn', hw.values_eq]

/-- A copy has the elements that a program stores that was found to be one. -/
theorem Conversion.Performs.element_eq_copy {c : Conversion} {f : Nat → Nat → Pixel → Pixel}
    (hc : c.Performs q r w f) (hq : p.Stands q r w) (hcopy : p.Copies q' r w)
    {planes : Quad Bytes} {x : Nat}
    (hsrc : r.WithinDepths p.depths ((r.pixel planes x).map UInt32.toNat)) (y : Nat) {k : Fin 4}
    (hk : k.val < w.layout.count) :
    (r.pixel planes x) k = (f x y (r.pixel planes x)) k := by
  have hsupplies := Shape.supplies_pixel hsrc
  obtain ⟨s, hsr, hsw, hcount⟩ := hcopy.shape
  have hle := hsr.count_le
  have hn : (q.written (r.pixel planes x)) k = some ((r.pixel planes x) k).toNat := by
    rw [Program.written, hq.written _ hsupplies, hcopy.written _ hsupplies k hk, Quad.get_map]
  have hlt := hsupplies.range k (by omega)
  rw [Quad.get_map, ← hsr.values_eq, hsw.values_eq] at hlt
  apply UInt32.toNat_inj.mp
  rw [hc.stores x y _ (r.holds_pixel planes x) k _ hn, Nat.mod_eq_of_lt hlt]

/-! ## 4. Building what stands for a program -/

namespace Program

/-- **What stands for a program passes the check and is built.** -/
theorem Stands.builds (h : p.Stands q r w) (cpu : CpuSet) : q.analyse.check = .ok (.ok ()) ∧
    ∃ matched c, Backend.portable.build q.analyse cpu = .ok (matched, .ok c) := by
  obtain ⟨r', w', inner, hq, hr, -, hcount⟩ := h.analyse.frame
  have hrun := h.analyse.runnable
  have hdefined : ∀ c : Fin 4, c.val < w'.layout.count →
      ((actAll (Quad.const 0) q.ops (Quad.const none)) c).isSome = true := by
    rw [hcount]
    exact h.defined _ (r.supplies_zero p.depths)
  constructor
  · refine hq.check fun _ => (hq.checkWritten_iff (fun op hop => hrun.exact op ?_) _).mpr hdefined
    obtain ⟨ri, wi, hops⟩ := hq.ops
    rw [hops]
    exact List.mem_cons_of_mem _ (List.mem_append_left _ hop)
  · have htyped := h.analyse.typed
    rw [← hr.elem] at htyped
    refine Backend.portable_builds hq hrun htyped r'.holds_zero (fun c hc => ?_) cpu
    rw [Program.written, actAll_congr_codes _ (codes_analyse q)]
    exact hdefined c hc

/-- What stands for itself compiles with simplification, if it hides no depth. -/
theorem Stands.compiles (h : p.Stands p r w) (hr : r.Regular) (hp : p.Framed r w inner)
    (hcheck : p.check = .ok (.ok ())) (hm : p.Measurable) (hdepth : ¬p.HidesDepth) (cpu : CpuSet) :
    ∃ report fast, (Compiler.portable cpu true).compile p = .ok report ∧ report.result = .ok fast := by
  obtain ⟨rules, q, hsimplify, hq | hcopy⟩ := h.simplify hr hm hdepth
  · obtain ⟨r', w', inner', hframe, -⟩ := hq.analyse.frame
    obtain ⟨hqcheck, matched, fast, hbuild⟩ := hq.builds cpu
    obtain ⟨report, hcompile, hfast⟩ :=
      Compiler.compile_of_build hp hcheck hsimplify hframe hqcheck hbuild
    exact ⟨report, fast, hcompile, hfast⟩
  · obtain ⟨report, hcompile, hfast⟩ := Compiler.compile_of_copy hp hcheck hsimplify
      (analyse_ops_of_nil hcopy.ops)
    exact ⟨report, _, hcompile, hfast⟩

/-- What is built of it performs it. -/
theorem Stands.performs {cpu : CpuSet} {matched : List Match} {c : Conversion}
    (h : p.Stands q r w) (hr : r.Regular) (hw : w.Regular) (hq : q.analyse.Framed r' w' inner)
    (hr' : r'.Narrows r) (hw' : w'.Narrows w)
    (hbuild : Backend.portable.build q.analyse cpu = .ok (matched, .ok c)) :
    ∃ f, c.Performs q.analyse r' w' f := by
  have htyped := h.analyse.typed
  rw [← hr'.elem] at htyped
  exact Backend.portable_performs hq (marksUnread_analyse q) htyped h.analyse.runnable.exact
    (hr'.regular hr) (hw'.regular hw) hbuild

end Program

/-! ## 5. The same pixels -/

namespace Conversion.Performs

variable {c c' : Conversion} {f f' : Nat → Nat → Pixel → Pixel} {src dst : View} {width : Nat}

/-- **Conversions of programs that stand for the same one leave the same pixels.** -/
theorem runs_agree (hc : c.Performs q r w f) (hc' : c'.Performs q' r' w' f')
    (hq : p.Stands q r w) (hq' : p.Stands q' r w) (hframe : q'.Framed r' w' inner)
    (hr : r'.Narrows r) (hw : w'.Narrows w) (hcount : w'.layout.count = w.layout.count)
    (hregular : w.Regular)
    (hsrc : ∀ i, i < min src.rows dst.rows → src.HoldsRow r width i)
    (hdst : ∀ i, i < min src.rows dst.rows → dst.HoldsRow w width i)
    (hwithin : ∀ i, i < min src.rows dst.rows → ∀ x, x < width →
      r.WithinDepths p.depths ((r.pixel (src.row i) x).map UInt32.toNat)) :
    ∃ out out', c.run src dst width = .ok out ∧ c'.run src dst width = .ok out' ∧
      ∀ i, i < min src.rows dst.rows → ∀ x, x < width →
        w.pixel (out'.row i) x = w.pixel (out.row i) x := by
  obtain rfl := hc.read
  obtain rfl := hc.write
  obtain rfl := hc'.read
  obtain rfl := hc'.write
  obtain ⟨a, ha⟩ := hc.pixelwise.exists_stages hsrc hdst
  obtain ⟨b, hb⟩ := hc'.pixelwise.exists_stages (fun i hi => hr.holdsRow (hsrc i hi))
    (fun i hi => hw.holdsRow (hdst i hi))
  refine ⟨_, _, ha.done, hb.done, fun i hi x hx => ?_⟩
  refine ha.pixels_agree hb hregular (.refl hw.count_pos) hw hcount (fun i hi x hx k hk => ?_) hi hx
  exact hc.element_eq hc' hq hq' hframe hr hw (hwithin i hi x hx) _ hk

/-- **A copy that goes through leaves the same pixels.** -/
theorem copy_agrees (hc : c.Performs q r w f) (hq : p.Stands q r w) (hcopy : p.Copies q' r w)
    (hr : r.Regular) (hregular : w.Regular)
    (hsrc : ∀ i, i < min src.rows dst.rows → src.HoldsRow r width i)
    (hdst : ∀ i, i < min src.rows dst.rows → dst.HoldsRow w width i)
    (hwithin : ∀ i, i < min src.rows dst.rows → ∀ x, x < width →
      r.WithinDepths p.depths ((r.pixel (src.row i) x).map UInt32.toNat)) :
    ∃ out, c.run src dst width = .ok out ∧
      ∀ out', (ofCopy r).run src dst width = .ok out' → ∀ i, i < min src.rows dst.rows →
        ∀ x, x < width → w.pixel (out'.row i) x = w.pixel (out.row i) x := by
  obtain rfl := hc.read
  obtain rfl := hc.write
  obtain ⟨s, hsr, hsw, hcount⟩ := hcopy.shape
  obtain ⟨a, ha⟩ := hc.pixelwise.exists_stages hsrc hdst
  refine ⟨_, ha.done, fun out' hrun i hi x hx => ?_⟩
  obtain ⟨b, hb⟩ := copy_stages hr hsrc ((copy_run_iff hr hsrc).mp ⟨out', hrun⟩)
  obtain rfl := Except.ok.inj (hb.done.symm.trans hrun)
  refine ha.pixels_agree hb hregular (s := s) hsr hsw hcount (fun i hi x hx k hk => ?_) hi hx
  exact hc.element_eq_copy hq hcopy (hwithin i hi x hx) _ hk

end Conversion.Performs

/-- **The copy goes through exactly if the destination has room for the planes that are not
written**: it has room for the others. -/
theorem Program.Copies.run_iff {src dst : View} {width : Nat} (h : p.Copies q r w) (hr : r.Regular)
    (hsrc : ∀ i, i < min src.rows dst.rows → src.HoldsRow r width i)
    (hdst : ∀ i, i < min src.rows dst.rows → dst.HoldsRow w width i) :
    (∃ out, (Conversion.ofCopy r).run src dst width = .ok out) ↔
      ∀ i, i < min src.rows dst.rows → ∀ p : Fin 4, w.layout.planes ≤ p.val →
        p.val < r.layout.planes → r.bytesPerPlane width ≤ ((dst.row i) p).size := by
  rw [Conversion.copy_run_iff hr hsrc]
  constructor
  · exact fun hroom i hi p _ hp => hroom i hi p hp
  · intro hspare i hi p hp
    by_cases hwritten : p.val < w.layout.planes
    · rw [h.bytesPerPlane_eq]
      exact Conversion.room_row (hdst i hi) p hwritten
    · exact hspare i hi p (Nat.not_lt.mp hwritten) hp

namespace Compiler

/-- **Simplification keeps integer pixels.** An integer program that fits together and compiles as it
is overflows with simplification if it hides a depth. Otherwise it compiles with simplification as
well, to a copy, a shuffle or a chain. Wherever the source and the destination hold their rows and the
source keeps to its depths, the plain conversion goes through. The simplified one goes through as
well, unless it is a copy that lacks room for planes which the program reads but does not write, and
leaves the same pixels. -/
theorem simplify_keeps_pixels {p : Program} {cpu : CpuSet} {report : Report} {plain : Conversion}
    (hcheck : p.check = .ok (.ok ())) (htyped : p.Typed)
    (hint : ∀ op ∈ p.ops, op.isIntegral = true)
    (hplain : (portable cpu false).compile p = .ok report) (hresult : report.result = .ok plain) :
    (p.HidesDepth → (portable cpu true).compile p = .error .overflow) ∧
    (¬p.HidesDepth → ∃ report' fast,
      (portable cpu true).compile p = .ok report' ∧ report'.result = .ok fast ∧
      (fast = Conversion.ofCopy plain.read ∨ (∃ s, fast.routine = .shuffle s) ∨
        ∃ chain, fast.routine = .chain chain) ∧
      ∀ (src dst : View) (width : Nat),
        (∀ r, r < min src.rows dst.rows → src.HoldsRow plain.read width r) →
        (∀ r, r < min src.rows dst.rows → dst.HoldsRow plain.write width r) →
        (∀ r, r < min src.rows dst.rows → ∀ x, x < width →
          plain.read.WithinDepths p.depths ((plain.read.pixel (src.row r) x).map UInt32.toNat)) →
        ∃ out, plain.run src dst width = .ok out ∧
          ((∃ out', fast.run src dst width = .ok out') ↔
            (fast.copiesRows = true → ∀ r, r < min src.rows dst.rows → ∀ p : Fin 4,
              plain.write.layout.planes ≤ p.val → p.val < plain.read.layout.planes →
                plain.read.bytesPerPlane width ≤ ((dst.row r) p).size)) ∧
          ∀ out', fast.run src dst width = .ok out' → ∀ r, r < min src.rows dst.rows →
            ∀ x, x < width → plain.write.pixel (out'.row r) x = plain.write.pixel (out.row r) x) := by
  obtain ⟨r, w, inner, hp, -⟩ := Program.check_eq_ok hcheck
  obtain ⟨hm, hcheck', matched, hbuild⟩ := of_compile_plain hplain hresult
  refine ⟨fun hdepth => compile_of_fault hp hcheck rfl (hdepth.simplify hp), fun hdepth => ?_⟩
  obtain ⟨hstands, hr, hw⟩ := hp.stands_of_build htyped hint hcheck' hbuild
  obtain ⟨inner', hpa, -⟩ := hp.congr (Program.codes_analyse p).symm
  obtain ⟨f, hf⟩ := hstands.performs hr hw hpa (.refl hr.count_pos) (.refl hw.count_pos) hbuild
  obtain rfl := hf.read
  obtain rfl := hf.write
  obtain ⟨rules, q, hsimplify, hq | hcopy⟩ := hstands.simplify hr hm hdepth
  · -- operations are left, and the backend takes them
    obtain ⟨r', w', inner'', hframe, hr', hw', hcount⟩ := hq.analyse.frame
    obtain ⟨hqcheck, matched', fast, hqbuild⟩ := hq.builds cpu
    obtain ⟨f', hf'⟩ := hq.performs hr hw hframe hr' hw' hqbuild
    obtain ⟨report', hcompile, hfast⟩ :=
      compile_of_build hp hcheck hsimplify hframe hqcheck hqbuild
    have hroutine := Backend.portable_routine hframe hqbuild
    have hnocopy : fast.copiesRows ≠ true := by
      unfold Conversion.copiesRows
      rcases hroutine with ⟨s, hs⟩ | ⟨chain, hchain⟩
      · rw [hs]
        exact Bool.false_ne_true
      · rw [hchain]
        exact Bool.false_ne_true
    refine ⟨report', fast, hcompile, hfast, .inr hroutine, fun src dst width hsrc hdst hwithin => ?_⟩
    obtain ⟨out, out', hrun, hrun', hpixels⟩ := hf.runs_agree hf' hstands.analyse hq.analyse hframe
      hr' hw' hcount hw hsrc hdst hwithin
    refine ⟨out, hrun, ⟨fun _ h => absurd h hnocopy, fun _ => ⟨out', hrun'⟩⟩, fun out'' hrun'' => ?_⟩
    obtain rfl := Except.ok.inj (hrun'.symm.trans hrun'')
    exact hpixels
  · -- nothing is left but a copy
    obtain ⟨report', hcompile, hfast⟩ := compile_of_copy hp hcheck hsimplify
      (Program.analyse_ops_of_nil hcopy.ops)
    refine ⟨report', _, hcompile, hfast, .inl rfl, fun src dst width hsrc hdst hwithin => ?_⟩
    obtain ⟨out, hrun, hpixels⟩ := hf.copy_agrees hstands.analyse hcopy hr hw hsrc hdst hwithin
    refine ⟨out, hrun, ?_, hpixels⟩
    rw [hcopy.run_iff hr hsrc hdst]
    exact ⟨fun h _ => h, fun h => h rfl⟩

/-- Moves bytes of seven bits up in wider elements, in two steps, after a limit that no such byte
exceeds. -/
def sevenBits : Program :=
  (Program.ofOps [.ofKind .u8 (.read ⟨1, false, 0⟩),
    .ofKind .u8 (.atMost (Quad.const (some (.ofNat 127)))), .ofKind .u8 (.convert .u16 false),
    .ofKind .u16 (.shiftLeft 2), .ofKind .u16 (.shiftLeft 3),
    .ofKind .u16 (.write ⟨1, false, 0⟩)]).withDepths (Quad.const 7)

theorem sevenBits_keeps_pixels : sevenBits.check = .ok (.ok ()) ∧ sevenBits.Typed ∧
    (∀ op ∈ sevenBits.ops, op.isIntegral = true) ∧ ¬sevenBits.HidesDepth ∧
    ∃ report report' plain fast out out',
      (portable CpuSet.none false).compile sevenBits = .ok report ∧ report.result = .ok plain ∧
      (portable CpuSet.none true).compile sevenBits = .ok report' ∧ report'.result = .ok fast ∧
      plain.run (Backend.twoRows (Backend.rising 215)) (Backend.twoRows (Bytes.zeros 215)) 17 =
        .ok out ∧
      fast.run (Backend.twoRows (Backend.rising 215)) (Backend.twoRows (Bytes.zeros 215)) 17 =
        .ok out' ∧
      ∀ r, r < 2 → ∀ x, x < 17 →
        plain.write.pixel (out'.row r) x = plain.write.pixel (out.row r) x := by
  have hcheck : sevenBits.check = .ok (.ok ()) := rfl
  have htyped : sevenBits.Typed := ⟨.u8, rfl, rfl, rfl, rfl, rfl, rfl, True.intro⟩
  have hint : ∀ op ∈ sevenBits.ops, op.isIntegral = true := by decide
  have hdepth : ¬sevenBits.HidesDepth := by
    rintro ⟨⟨op, hop, -, l, d, hk, -, hpacked, -⟩, -⟩
    have hplanar : ∀ op ∈ sevenBits.ops, op.transfer?.all (!·.packed) = true := by decide
    have hl := hplanar op hop
    rw [Op.transfer?, hk, Option.all_some, hpacked] at hl
    cases hl
  obtain ⟨report, plain, hplain, hresult, hends⟩ := exists_report (c := portable CpuSet.none false)
    (p := sevenBits) (g := fun c => (c.read, c.write))
    (a := (⟨.u8, ⟨1, false, 0⟩⟩, ⟨.u16, ⟨1, false, 0⟩⟩)) (by decide +kernel)
  have hread : plain.read = ⟨.u8, ⟨1, false, 0⟩⟩ := congrArg Prod.fst hends
  have hwrite : plain.write = ⟨.u16, ⟨1, false, 0⟩⟩ := congrArg Prod.snd hends
  have hbits : ∀ r, r < 2 → ∀ x, x < 17 → ∀ i : Fin 4, ((Shape.pixel ⟨.u8, ⟨1, false, 0⟩⟩
      ((Backend.twoRows (Backend.rising 215)).row r) x).map UInt32.toNat) i < 2 ^ 7 := by
    decide +kernel
  obtain ⟨report', fast, hfast, hresult', -, hruns⟩ :=
    (simplify_keeps_pixels hcheck htyped hint hplain hresult).2 hdepth
  obtain ⟨out, hrun, hiff, hpixels⟩ := hruns (Backend.twoRows (Backend.rising 215))
    (Backend.twoRows (Bytes.zeros 215)) 17
    (fun r hr => Backend.twoRows_holdsRow Array.size_ofFn (by rw [hread]; rfl)
      (by rw [hread]; decide) hr)
    (fun r hr => Backend.twoRows_holdsRow (Bytes.size_zeros 215) (by rw [hwrite]; rfl)
      (by rw [hwrite]; decide) hr)
    (fun r hr x hx d hd _ i _ _ => by
      cases hd
      rw [hread, Quad.get_const]
      exact hbits r hr x hx i)
  obtain ⟨out', hrun'⟩ := hiff.mpr fun _ r _ p hle hlt => by
    rw [hread] at hlt
    rw [hwrite] at hle
    exact absurd hlt (Nat.not_lt.mpr hle)
  exact ⟨hcheck, htyped, hint, hdepth, report, report', plain, fast, out, out', hplain, hresult, hfast,
    hresult', hrun, hrun', hpixels out' hrun'⟩

/-! ## 6. Copies of more than is written -/

/-- Keeps the first plane of three. -/
def firstPlane : Program :=
  .ofOps [.ofKind .u8 (.read ⟨3, false, 0⟩), .ofKind .u8 (.write ⟨1, false, 0⟩)]

/-- One pixel in three planes. -/
def threePlanes : View := ⟨⟨#[7], #[8], #[9], #[]⟩, ⟨1, 1, 1, 0⟩, 0, 1⟩

/-- Room for one pixel in one plane. -/
def onePlane : View := ⟨⟨#[0], #[], #[], #[]⟩, ⟨1, 0, 0, 0⟩, 0, 1⟩

/-- **A copy of all that is read may fault where the program itself does not.** -/
theorem firstPlane_copy_faults : ∃ report report' plain fast out fault,
    (portable CpuSet.none false).compile firstPlane = .ok report ∧ report.result = .ok plain ∧
    (portable CpuSet.none true).compile firstPlane = .ok report' ∧ report'.result = .ok fast ∧
    plain.run threePlanes onePlane 1 = .ok out ∧ fast.run threePlanes onePlane 1 = .error fault := by
  obtain ⟨report, plain, hplain, hresult, hends⟩ := exists_report (c := portable CpuSet.none false)
    (p := firstPlane) (g := fun c => (c.read, c.write))
    (a := (⟨.u8, ⟨3, false, 0⟩⟩, ⟨.u8, ⟨1, false, 0⟩⟩)) (by decide +kernel)
  obtain ⟨report', fast, hfast, hresult', hfault⟩ := exists_report (c := portable CpuSet.none true)
    (p := firstPlane) (g := fun c => (c.run threePlanes onePlane 1).toOption.isNone) (a := true)
    (by decide +kernel)
  have hread : plain.read = ⟨.u8, ⟨3, false, 0⟩⟩ := congrArg Prod.fst hends
  have hwrite : plain.write = ⟨.u8, ⟨1, false, 0⟩⟩ := congrArg Prod.snd hends
  have hsrc : ∀ p : Fin 4, p.val < 3 → 1 ≤ (threePlanes.planes p).size := by decide
  have hdst : ∀ p : Fin 4, p.val < 1 → 1 ≤ (onePlane.planes p).size := by decide
  obtain ⟨-, hcheck, matched, hbuild⟩ := of_compile_plain hplain hresult
  obtain ⟨f, hpixelwise⟩ := Backend.portable_pixelwise hcheck hbuild (by rw [hread]; decide)
    (by rw [hwrite]; decide)
  have hviews : ∃ views, plain.Stages f threePlanes onePlane 1 views := hpixelwise.exists_stages
    (fun r hr => by
      obtain rfl := Nat.lt_one_iff.mp hr
      intro p hp
      rw [hread] at hp ⊢
      rw [Nat.zero_mul, Nat.zero_add]
      exact hsrc p hp)
    (fun r hr => by
      obtain rfl := Nat.lt_one_iff.mp hr
      intro p hp
      rw [hwrite] at hp ⊢
      rw [Nat.zero_mul, Nat.zero_add]
      exact hdst p hp)
  obtain ⟨views, hstages⟩ := hviews
  cases hrun : fast.run threePlanes onePlane 1 with
  | ok out =>
    rw [hrun] at hfault
    cases hfault
  | error fault =>
    exact ⟨report, report', plain, fast, _, fault, hplain, hresult, hfast, hresult', hstages.done,
      hrun⟩

end Compiler

end PixelConv
