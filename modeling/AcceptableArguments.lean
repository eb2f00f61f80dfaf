import AcceptableArguments.AttackRecords
import AcceptableArguments.ExtensionCorrespondence
import AcceptableArguments.Readers.Agreement
import AcceptableArguments.Algorithms.VariableBlocks
import AcceptableArguments.Algorithms.FudgeFormulas
import AcceptableArguments.Algorithms.FudgeHeads
import AcceptableArguments.Wrappers.DimacsText
import AcceptableArguments.Wrappers.ExternalVerdicts
import AcceptableArguments.Wrappers.IncrementalCorrectness
import AcceptableArguments.KissatExecutables
import AcceptableArguments.ExecutableCalls
import AcceptableArguments.RunsCompared
