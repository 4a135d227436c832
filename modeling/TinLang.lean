import TinLang.Main
import TinLang.Proofs.Attribution
import TinLang.Proofs.Codec
import TinLang.Proofs.Editor.Convergence
import TinLang.Proofs.Editor.Excerpts
import TinLang.Proofs.Editor.Markers
import TinLang.Proofs.Grammar.Printed
import TinLang.Proofs.Immediates
import TinLang.Proofs.Machine.GuestStrings
import TinLang.Proofs.Machine.StructValues
import TinLang.Proofs.Machine.Watched
import TinLang.Proofs.Peephole
import TinLang.Proofs.Preservation
import TinLang.Proofs.Project.Dependencies
import TinLang.Proofs.Relinking
import TinLang.Proofs.Reported
import TinLang.Proofs.Simulation.Canonical
import TinLang.Proofs.StructLayouts
