import FlowLint.Plan.File
import FlowLint.Proofs.Plan.Entry

/-! # Plan files that are refused

A plan file is read in stages: there has to be a file at the path, with a text in UTF-8 that is JSON
and says a plan. What a stage refuses is reported as a bad plan, except for a path that no file can
have, for bytes that are no text and for a text that is beyond the limits of the host. Nothing is
asked of the host.
-/
namespace FlowLint

theorem fromUTF8?_eq_some_iff {bytes : ByteArray} {s : String} :
    String.fromUTF8? bytes = some s ↔ s.toUTF8 = bytes := by
  rw [String.fromUTF8?]
  constructor
  · intro h
    split at h
    · cases h
      rfl
    · cases h
  · rintro rfl
    rw [String.toUTF8_eq_toByteArray, dif_pos s.isValidUTF8]
    rfl

namespace Path
variable {path : CodeText}

/-- A path that a file can have: without a null character, and with such surrogates only as stand
for bytes. -/
def Nameable (path : CodeText) : Prop :=
  ∀ p ∈ path.points, p ≠ .char '\x00' ∧
    ∀ offset, p = .surrogate offset → 0xdc80 ≤ p.number ∧ p.number ≤ 0xdcff

theorem isEncodable_iff {p : CodePoint} : p.isEncodable = true ↔
    ∀ offset, p = .surrogate offset → 0xdc80 ≤ p.number ∧ p.number ≤ 0xdcff := by
  cases p with
  | char c => exact ⟨fun _ => nofun, fun _ => rfl⟩
  | surrogate offset =>
    simp only [CodePoint.isEncodable, CodePoint.number, Bool.and_eq_true, decide_eq_true_eq,
      CodePoint.surrogate.injEq, forall_eq']
    omega

theorem fault?_eq_none_iff : fault? path = none ↔ Nameable path := by
  have hpoints : Nameable path ↔
      path.points.all CodePoint.isEncodable = true ∧ .char '\x00' ∉ path.points := by
    simp only [Nameable, List.all_eq_true, isEncodable_iff, forall_and, and_comm,
      List.forall_mem_ne']
  rw [hpoints, fault?]
  split
  · next h => simp [h]
  · next h => simp [h]

theorem code?_of_fault? {e : Error} (h : fault? path = some e) : e.code? = none := by
  rw [fault?] at h
  split at h
  · split at h
    · cases h
      rfl
    · cases h
  · cases h
    rfl

end Path

namespace Plan
variable {host : Host} {path : CodeText} {s : String}

/-- A file that can be read decides alone what is loaded, if the host takes its text. -/
theorem load_of_read (hpath : Path.Nameable path)
    (hread : host.read (Path.ofText path) = .ok s.toUTF8)
    (hlimits : host.withinLimits (withLineFeeds s) = true) :
    load host path = ((Json.parse (withLineFeeds s)).mapError
      (.malformedText (Path.ofText path).text) >>= ofJson) := by
  have hdecoded : String.fromUTF8? s.toUTF8 = some s := fromUTF8?_eq_some_iff.mpr rfl
  simp only [load, Path.fault?_eq_none_iff.mpr hpath, hread, hdecoded, if_pos hlimits]
  cases Json.parse (withLineFeeds s) <;> rfl

theorem load_of_not_decoded (hpath : Path.Nameable path) {bytes : ByteArray}
    (hread : host.read (Path.ofText path) = .ok bytes) (hbytes : ∀ s : String, s.toUTF8 ≠ bytes) :
    load host path = .error .undecodable := by
  have hnone : String.fromUTF8? bytes = none :=
    Option.eq_none_iff_forall_ne_some.mpr fun s hs => hbytes s (fromUTF8?_eq_some_iff.mp hs)
  simp only [load, Path.fault?_eq_none_iff.mpr hpath, hread, hnone]

theorem load_of_over_limit (hpath : Path.Nameable path)
    (hread : host.read (Path.ofText path) = .ok s.toUTF8)
    (hlimits : ¬host.withinLimits (withLineFeeds s) = true) :
    load host path = .error .overLimit := by
  have hdecoded : String.fromUTF8? s.toUTF8 = some s := fromUTF8?_eq_some_iff.mpr rfl
  simp only [load, Path.fault?_eq_none_iff.mpr hpath, hread, hdecoded, if_neg hlimits]

theorem load_of_unreadable (hpath : Path.Nameable path) {cause : FileFault}
    (hread : host.read (Path.ofText path) = .error cause) :
    load host path = .error (.unreadableFile (Path.ofText path).text cause) := by
  simp only [load, Path.fault?_eq_none_iff.mpr hpath, hread]

theorem load_of_unnameable (hpath : ¬Path.Nameable path) :
    ∃ e, load host path = .error e ∧ e.code? = none := by
  rw [load]
  cases hfault : Path.fault? path with
  | none => exact absurd (Path.fault?_eq_none_iff.mp hfault) hpath
  | some e => exact ⟨e, rfl, Path.code?_of_fault? hfault⟩

/-- A path that a file can have and, if the host reads bytes there, a text that they encode and
that the host takes. -/
structure Legible (host : Host) (path : CodeText) : Prop where
  nameable : Path.Nameable path
  decodes : ∀ bytes, host.read (Path.ofText path) = .ok bytes →
    ∃ s : String, s.toUTF8 = bytes ∧ host.withinLimits (withLineFeeds s) = true

theorem load_of_legible (h : Legible host path) : (∃ p, load host path = .ok p) ∨
    ∃ e, load host path = .error e ∧ e.code?.map ErrorCode.group = some .configuration := by
  cases hread : host.read (Path.ofText path) with
  | error cause => exact .inr ⟨_, load_of_unreadable h.nameable hread, rfl⟩
  | ok bytes =>
    obtain ⟨s, rfl, hlimits⟩ := h.decodes bytes hread
    rw [load_of_read h.nameable hread hlimits]
    cases Json.parse (withLineFeeds s) with
    | error l => exact .inr ⟨_, rfl, rfl⟩
    | ok j =>
      change (∃ p, ofJson j = .ok p) ∨ ∃ e, ofJson j = .error e ∧ _
      cases hj : ofJson j with
      | ok p => exact .inl ⟨p, rfl⟩
      | error e => exact .inr ⟨e, rfl, group_of_ofJson_error hj⟩

theorem load_of_not_legible (h : ¬Legible host path) :
    ∃ e, load host path = .error e ∧ e.code? = none := by
  by_cases hpath : Path.Nameable path
  · have hbytes : ∃ bytes, host.read (Path.ofText path) = .ok bytes ∧
        ∀ s : String, s.toUTF8 = bytes → ¬host.withinLimits (withLineFeeds s) = true := by
      by_contra! hall
      exact h ⟨hpath, hall⟩
    obtain ⟨bytes, hread, hbytes⟩ := hbytes
    by_cases hdecodes : ∃ s : String, s.toUTF8 = bytes
    · obtain ⟨s, rfl⟩ := hdecodes
      exact ⟨_, load_of_over_limit hpath hread (hbytes s rfl), rfl⟩
    · exact ⟨_, load_of_not_decoded hpath hread (not_exists.mp hdecodes), rfl⟩
  · exact load_of_unnameable hpath

/-- Whatever files there are and wherever the limits lie, a plan is loaded from a text that says it,
and all else is a fault of the configuration, but for what is not legible: a path that no file can
have, bytes that are not UTF-8 and a text that the host does not take. -/
theorem load_contract (host : Host) (path : CodeText) :
    (Legible host path → (∃ p, load host path = .ok p) ∨
      ∃ e, load host path = .error e ∧ e.code?.map ErrorCode.group = some .configuration) ∧
    (¬Legible host path → ∃ e, load host path = .error e ∧ e.code? = none) ∧
    (Path.Nameable path →
      (∀ cause, host.read (Path.ofText path) = .error cause →
        load host path = .error (.unreadableFile (Path.ofText path).text cause)) ∧
      ∀ s : String, host.read (Path.ofText path) = .ok s.toUTF8 →
        host.withinLimits (withLineFeeds s) = true →
        (∀ l, Json.parse (withLineFeeds s) = .error l →
          load host path = .error (.malformedText (Path.ofText path).text l)) ∧
        ∀ j, Json.parse (withLineFeeds s) = .ok j → load host path = ofJson j) := by
  refine ⟨load_of_legible, load_of_not_legible, fun hpath => ⟨fun cause hread => ?_, ?_⟩⟩
  · exact load_of_unreadable hpath hread
  · intro s hread hlimits
    rw [load_of_read hpath hread hlimits]
    constructor
    · intro l hl
      rw [hl]
      rfl
    · intro j hj
      rw [hj]
      rfl

/-- A host with a plan without entries in a directory, and with bytes that are no text. -/
def stocked : Host where
  read p :=
    if p.text = "/srv/plan.json" then .ok "[]".toUTF8
    else if p.text = "/srv" then .error ⟨21, "Is a directory", true⟩
    else if p.text = "plan.json" then .ok ⟨#[0xff]⟩
    else .error ⟨2, "No such file or directory", true⟩
  withinLimits s := s.length < 500

theorem stocked_contract :
    Legible stocked "/srv//plan.json" ∧ load stocked "/srv//plan.json" = .ok [] ∧
    Legible stocked "/srv/" ∧ (∃ e, load stocked "/srv/" = .error e ∧
      e.code?.map ErrorCode.group = some .configuration) ∧
    ¬Legible stocked "plan.json" ∧ ∃ e, load stocked "plan.json" = .error e ∧ e.code? = none := by
  obtain ⟨-, -, hplan⟩ := load_contract stocked "/srv//plan.json"
  obtain ⟨hdirectory, -, -⟩ := load_contract stocked "/srv/"
  obtain ⟨-, hbytes, -⟩ := load_contract stocked "plan.json"
  have hpath : Path.Nameable "/srv//plan.json" := Path.fault?_eq_none_iff.mp rfl
  have hread : stocked.read (Path.ofText "/srv//plan.json") = .ok "[]".toUTF8 := rfl
  have hplanLegible : Legible stocked "/srv//plan.json" := by
    refine ⟨hpath, fun bytes hbytes => ?_⟩
    cases hread.symm.trans hbytes
    exact ⟨"[]", rfl, rfl⟩
  have hdirectoryLegible : Legible stocked "/srv/" :=
    ⟨Path.fault?_eq_none_iff.mp rfl, fun bytes hread => nomatch hread⟩
  have hnotLegible : ¬Legible stocked "plan.json" := by
    rintro ⟨-, hdecodes⟩
    obtain ⟨s, hs, -⟩ := hdecodes ⟨#[0xff]⟩ rfl
    cases fromUTF8?_eq_some_iff.mpr hs
  refine ⟨hplanLegible, ((hplan hpath).2 "[]" hread rfl).2 (.arr []) rfl, hdirectoryLegible, ?_,
    hnotLegible, hbytes hnotLegible⟩
  rcases hdirectory hdirectoryLegible with ⟨p, hp⟩ | he
  · cases hp
  · exact he

/-- Bytes that are no text do not count as a bad plan. -/
theorem load_undecodable : load stocked "plan.json" = .error .undecodable ∧
    Error.undecodable.code? = none := ⟨rfl, rfl⟩

end Plan

end FlowLint
