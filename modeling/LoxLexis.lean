import LoxLexis.Scan.FaultLog
import LoxLexis.Scan.Summary
import LoxLexis.Main
import LoxLexis.Proofs.CharacterReader
import LoxLexis.Proofs.PrintedTokens
import LoxLexis.Proofs.DialogueAgreement
import LoxLexis.Proofs.FinalTerminator
import LoxLexis.Proofs.NewlineSeam
import LoxLexis.Proofs.SharedLog
import LoxLexis.Proofs.FileRuns
import LoxLexis.Proofs.DistinctListings
import LoxLexis.Proofs.OneLineTokens
import LoxLexis.Proofs.AdjacentTokens
import LoxLexis.Proofs.Lookahead
import LoxLexis.Proofs.PlainText
import LoxLexis.Proofs.InsertedLayout
import LoxLexis.Proofs.LineEndings
import LoxLexis.Proofs.NumberValues
import LoxLexis.Proofs.DistinctReports
import LoxLexis.Proofs.PositionalNumbers
import LoxLexis.Proofs.WholeNumbers
import LoxLexis.Proofs.SoundCursor
import LoxLexis.Proofs.ProgramRuns
import LoxLexis.Proofs.FilePaths
import LoxLexis.Proofs.WrappedText
import LoxLexis.Proofs.TerminalText
import LoxLexis.Proofs.ScanFigures
import LoxLexis.Proofs.MatchedCharacters
