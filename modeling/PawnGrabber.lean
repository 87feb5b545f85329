import PawnGrabber.Theorems.Bitboards
import PawnGrabber.Theorems.LegalPlay
import PawnGrabber.Theorems.Generation
import PawnGrabber.Theorems.Attacks
import PawnGrabber.Theorems.Captures
import PawnGrabber.Theorems.GameTree
import PawnGrabber.Theorems.Mirror
import PawnGrabber.Theorems.Fen
import PawnGrabber.Theorems.SearchResult
import PawnGrabber.Theorems.Checks
import PawnGrabber.Theorems.Runs
import PawnGrabber.Theorems.Text
import PawnGrabber.Theorems.Perft
import PawnGrabber.Theorems.Counting
