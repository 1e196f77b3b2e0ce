import RulesText.Brace.Expand
import RulesText.Passage.Expand
import RulesText.Proofs.Brace.Attacks
import RulesText.Proofs.Brace.Lines
import RulesText.Proofs.Brace.NormalForm
import RulesText.Proofs.Brace.Occurrence
import RulesText.Proofs.Brace.Passes
import RulesText.Proofs.Brace.Rewriting
import RulesText.Proofs.Brace.Termination
import RulesText.Proofs.Number.Bits
import RulesText.Proofs.Number.Numeral
import RulesText.Proofs.Number.Rounding
import RulesText.Proofs.Passage.Bodies
import RulesText.Proofs.Passage.Brackets
import RulesText.Proofs.Passage.Idempotence
import RulesText.Proofs.Passage.Journal
import RulesText.Proofs.Passage.Locality
import RulesText.Proofs.Passage.Location
import RulesText.Proofs.Passage.Reading
import RulesText.Proofs.Passage.Recursion
import RulesText.Proofs.Passage.Segmentation
import RulesText.Proofs.Passage.Turns
import RulesText.Proofs.Rank
import RulesText.Proofs.Roll.Acceptance
import RulesText.Proofs.Roll.Atoms
import RulesText.Proofs.Roll.Blanks
import RulesText.Proofs.Roll.Commas
import RulesText.Proofs.Roll.Coverage
import RulesText.Proofs.Roll.Faults
import RulesText.Proofs.Roll.Joining
import RulesText.Proofs.Roll.Kinds
import RulesText.Proofs.Roll.Lexemes
import RulesText.Proofs.Roll.Meaning
import RulesText.Proofs.Roll.Parse
import RulesText.Proofs.Roll.Provenance
import RulesText.Proofs.Roll.Records
import RulesText.Proofs.Roll.Regrouping
import RulesText.Proofs.Roll.RoundTrip
import RulesText.Proofs.Roll.Slices
import RulesText.Proofs.Roll.Spacing
import RulesText.Proofs.Roll.Stacks
import RulesText.Proofs.Roll.Substitution
import RulesText.Proofs.Roll.Supply
import RulesText.Proofs.Roll.Translation
import RulesText.Proofs.Roll.Values
import RulesText.Proofs.Roll.Warnings
import RulesText.Proofs.Tag.Nonempty
import RulesText.Proofs.Tag.Parameters
import RulesText.Proofs.Tag.Provenance
import RulesText.Proofs.Tag.Rearrangement
