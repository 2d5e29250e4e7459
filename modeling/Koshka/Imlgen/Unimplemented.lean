import Koshka.Imlgen.Generate
import Koshka.Imlgen.Plan

namespace Koshka.Iml

open Data Arm

/-- Only a data-processing word becomes an instruction that writes a register. -/
def OnlyTranslated (word : U32) : Prop :=
  ∀ (env : Environment) (before after : Machine) (result : DecodeResult),
    Returns (decode env word) before result after → result.instr.var = .math → DataProcessing word

section Unimplemented

variable {env : Environment} {before after : Machine} {result : DecodeResult} {word : U32}

theorem plan_unimplemented (nonzero : word ≠ 0) (data : ¬ DataProcessing word)
    (branch : ¬ UnconditionalBranch word) : plan word = some .blank := by
  simp only [DataProcessing, UnconditionalBranch, not_or] at data branch
  simp only [plan, if_neg nonzero, if_neg data.1, if_neg data.2.1, if_neg data.2.2.1, if_neg data.2.2.2,
    if_neg branch.1, if_neg branch.2]

/-- Every unimplemented word decodes to the zero instruction, on any machine. -/
theorem decode_unimplemented (nonzero : word ≠ 0) (data : ¬ DataProcessing word)
    (branch : ¬ UnconditionalBranch word) : Returns (decode env word) before .blank before := by
  rw [decode_returns]
  refine ⟨_, plan_unimplemented nonzero data branch, ?_⟩
  rw [Plan.blank, plain_build rfl, returns_pure]
  exact ⟨rfl, rfl⟩

theorem decode_branch (branch : UnconditionalBranch word)
    (run : Returns (decode env word) before result after) : result.instr.var = .branch := by
  have shape (page : L2BranchPage) (planned : plan word = some (planBranch word page)) :
      result.instr.var = .branch := by
    obtain ⟨_, decoded⟩ := decodeBranchUnconditional_branch word page
    rw [← ((decode_planBranch planned).mp run).1, decoded]
  have planned := plan_unconditional branch
  by_cases immediate : BranchImmediate word
  · exact shape .unconditionalImm (planned.trans (if_pos immediate))
  · exact shape .unconditionalReg (planned.trans (if_neg immediate))

end Unimplemented

/-- The zero instruction that stands for every unimplemented word is numbered like a
register write. -/
theorem onlyTranslated_iff (word : U32) (nonzero : word ≠ 0) :
    OnlyTranslated word ↔ DataProcessing word ∨ UnconditionalBranch word := by
  constructor
  · intro only
    by_contra neither
    rw [not_or] at neither
    have run : Returns (decode .calm word) (.initial .calm [] 0) .blank (.initial .calm [] 0) :=
      decode_unimplemented nonzero neither.1 neither.2
    exact neither.1 (only _ _ _ _ run rfl)
  · intro either env before after result run math
    rcases either with data | branch
    · exact data
    · rw [decode_branch branch run] at math
      cases math

theorem onlyTranslated_iff_add : OnlyTranslated 0x8B020020 :=
  (onlyTranslated_iff 0x8B020020 (by decide)).mpr (by decide)

/-- `ldr x0, [x1]`. -/
theorem onlyTranslated_fails_load : ¬ ∀ word : U32, word ≠ 0 → OnlyTranslated word := by
  intro only
  have run : Returns (decode .calm 0xF9400020) (.initial .calm [] 0) .blank (.initial .calm [] 0) :=
    decode_unimplemented (by decide) (by decide) (by decide)
  exact absurd (only 0xF9400020 (by decide) _ _ _ _ run rfl) (by decide)

end Koshka.Iml
