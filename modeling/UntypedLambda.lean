import UntypedLambda.Completion
import UntypedLambda.Main
import UntypedLambda.Proofs.AlphaEquivalence
import UntypedLambda.Proofs.FirstFault
import UntypedLambda.Proofs.PrintedForm
import UntypedLambda.Proofs.ReductionRun
import UntypedLambda.World
import UntypedLambda.Proofs.ShiftedNumbers
import UntypedLambda.Proofs.NamesInUse
import UntypedLambda.Proofs.Spelling
import UntypedLambda.Proofs.ContinuedLines
import UntypedLambda.Proofs.UnreadInput
import UntypedLambda.Proofs.PromptLines
import UntypedLambda.Proofs.Evaluation
import UntypedLambda.Proofs.Loading
import UntypedLambda.Proofs.ExpressionLines
import UntypedLambda.Proofs.Arguments
import UntypedLambda.Proofs.SessionSettings
import UntypedLambda.Proofs.ReachedExpressions
import UntypedLambda.Proofs.FreeVariables
import UntypedLambda.Proofs.RenamedBinders
import UntypedLambda.Proofs.ParsingByIndices
import UntypedLambda.Proofs.UnambiguousText
import UntypedLambda.Proofs.LineRuns
import UntypedLambda.Proofs.FewestParentheses
import UntypedLambda.Proofs.ScanInParts
import UntypedLambda.Proofs.ChurchNumerals
import UntypedLambda.Proofs.FreeOccurrences
import UntypedLambda.Proofs.CommandGrammar
import UntypedLambda.Proofs.EnoughBudget
import UntypedLambda.Proofs.NestedLoading
import UntypedLambda.Proofs.LimitNumerals
import UntypedLambda.Proofs.SmallerCalls
import UntypedLambda.Proofs.DrawnNames
